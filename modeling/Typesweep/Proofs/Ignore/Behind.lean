import Typesweep.Proofs.Ignore.Prefix

/-!
# Rule patterns put behind a directory

Behind a directory and a slash a pattern is read as it is without them, its start excepted: stars
that stand for components there take the slash after the directory as well. It then matches behind
the directory what it matches without it.

A pattern of nothing but `**/` is the exception. Read by itself it is two stars alone, which match
everything; behind a directory it is a row of components that ends with a slash, and no path does.

* `behind`: what becomes of the elements of a pattern.
* `Behind`, `parseFrom_behind`: two readers that go along the same text.
* `parse_append_slash`: reading a pattern behind a directory.
* `accepts_behind`: matching it.
-/

namespace Typesweep.IgnoreGlob

variable {c : Char} {t u dir rest : Text} {lead tokens : List Token} {token : Token}
  {p q : Progress} {fuel : Nat}

/-- A character that is read as itself outside of braces. -/
def IsPlain (c : Char) : Prop :=
  IsOrdinary c ∧ c ≠ '\x7d'

instance : DecidablePred IsPlain :=
  fun _ => inferInstanceAs (Decidable (_ ∧ _))

/-- Whether a pattern is `**/`, once or several times, and nothing more. -/
def isBareComponents : Text → Bool
  | ['*', '*', '/'] => true
  | '*' :: '*' :: '/' :: rest => isBareComponents rest
  | _ => false

theorem isBareComponents_stars (h : isBareComponents ('*' :: '*' :: '/' :: t) = false) :
    t ≠ [] ∧ isBareComponents t = false := by
  cases t with
  | nil => cases h
  | cons c t => exact ⟨List.cons_ne_nil c t, by simpa [isBareComponents] using h⟩

/-- The elements of a pattern put behind a directory. -/
def behind (dir : Text) : List Token → List Token
  | .leadingComponents :: tokens => dir.map .literal ++ .innerComponents :: tokens
  | tokens => dir.map .literal ++ .literal '/' :: tokens

/-- The same while a pattern is read, with the last element first and `lead` for the directory. -/
def behindReversed (lead : List Token) : List Token → List Token
  | [] => .literal '/' :: lead
  | [.leadingComponents] => .innerComponents :: lead
  | token :: tokens => token :: behindReversed lead tokens

theorem behindReversed_cons (h : token :: tokens ≠ [.leadingComponents]) :
    behindReversed lead (token :: tokens) = token :: behindReversed lead tokens := by
  cases tokens with
  | cons token' tokens => simp [behindReversed]
  | nil =>
    cases token with
    | leadingComponents => exact absurd rfl h
    | _ => simp [behindReversed]

theorem behindReversed_ne_nil (lead tokens : List Token) : behindReversed lead tokens ≠ [] := by
  unfold behindReversed
  split <;> exact List.cons_ne_nil _ _

theorem reverse_behindReversed (dir : Text) (tokens : List Token) :
    (behindReversed (dir.map Token.literal).reverse tokens).reverse =
      behind dir tokens.reverse := by
  have hconcat : ∀ (later : List Token) (token : Token), token ≠ .leadingComponents →
      behindReversed (dir.map Token.literal).reverse (later ++ [token]) =
        later ++ token :: .literal '/' :: (dir.map Token.literal).reverse := by
    intro later token htoken
    induction later with
    | nil => exact behindReversed_cons (by simpa using htoken)
    | cons first later ih =>
      rw [List.cons_append, behindReversed_cons (by simp), ih, List.cons_append]
  have hleading : ∀ later : List Token,
      behindReversed (dir.map Token.literal).reverse (later ++ [.leadingComponents]) =
        later ++ .innerComponents :: (dir.map Token.literal).reverse := by
    intro later
    induction later with
    | nil => rfl
    | cons first later ih =>
      rw [List.cons_append, behindReversed_cons (by simp), ih, List.cons_append]
  rcases List.eq_nil_or_concat tokens with rfl | ⟨later, token, rfl⟩
  · simp [behindReversed, behind]
  · rw [List.concat_eq_append, List.reverse_append, List.reverse_singleton, List.singleton_append]
    by_cases htoken : token = .leadingComponents
    · subst htoken
      rw [hleading]
      simp [behind]
    · rw [hconcat later token htoken]
      cases token <;> simp_all [behind]

/-! ## Reading -/

/-- A text that ends with a slash and two stars. -/
def EndsInside (t : Text) : Prop :=
  "/**".toList <:+ t

instance : DecidablePred EndsInside :=
  fun t => inferInstanceAs (Decidable ("/**".toList <:+ t))

/-- What stands before a place in a text and from there on does not end so, if the text does not. -/
theorem not_endsInside_next {last : Option Char} (h : ¬EndsInside (last.toList ++ t))
    (hu : c :: u <:+ t) : ¬EndsInside ((some c).toList ++ u) :=
  fun hinside => h (hinside.trans (hu.trans (List.suffix_append _ _)))

namespace Progress

theorem last_replaceLast (p : Progress) (token : Token) (c : Char) :
    (p.replaceLast token c).last = some c := by
  unfold replaceLast
  split <;> rfl

theorem last_comma (p : Progress) : p.comma.last = some ',' := by
  unfold comma
  split <;> rfl

theorem last_of_closeGroup? (h : p.closeGroup? = some q) : q.last = some '\x7d' := by
  unfold closeGroup? at h
  split at h
  · cases h
  · cases h
    rfl

/-- Stars take a slash after them, or end with a star. -/
theorem stars_cases (p : Progress) (following : Option Char) :
    ((p.stars following).2 = false ∧ (p.stars following).1.last = some '*') ∨
      ((p.stars following).2 = true ∧ (p.stars following).1.last = some '/' ∧
        following = some '/') := by
  unfold stars
  dsimp only
  split
  · split
    · exact .inl ⟨rfl, rfl⟩
    · split
      · next hslash => exact .inr ⟨rfl, rfl, congrArg some hslash⟩
      · exact .inl ⟨rfl, rfl⟩
  · split
    · exact .inl ⟨rfl, rfl⟩
    · split
      · exact .inl ⟨rfl, last_replaceLast ..⟩
      · split
        · exact .inl ⟨rfl, last_replaceLast ..⟩
        · split
          · next hslash => exact .inr ⟨rfl, last_replaceLast .., congrArg some hslash⟩
          · exact .inl ⟨rfl, rfl⟩

end Progress

/-- A reader `p`, and a reader `q` that has read a directory and a slash before. The text is what
both have before them. -/
inductive Behind (lead : List Token) : Text → Progress → Progress → Prop
  | fresh {t : Text} {unclosed : Bool} (hbare : isBareComponents t = false) :
      Behind lead t ⟨[], [], none, unclosed⟩ ⟨.literal '/' :: lead, [], some '/', unclosed⟩
  | outside {t : Text} {tokens : List Token} {last : Option Char} {unclosed : Bool}
      (hne : tokens ≠ [])
      (hbare : tokens = [.leadingComponents] → t ≠ [] ∧ isBareComponents t = false) :
      Behind lead t ⟨tokens, [], last, unclosed⟩ ⟨behindReversed lead tokens, [], last, unclosed⟩
  | inside {t : Text} {tokens before : List Token} {last : Option Char} {unclosed : Bool}
      (groups : List Group) {branches : List (List Token)} :
      Behind lead t ⟨tokens, groups ++ [⟨branches, before⟩], last, unclosed⟩
        ⟨tokens, groups ++ [⟨branches, behindReversed lead before⟩], last, unclosed⟩

namespace Behind

theorem unclosed_eq (h : Behind lead t p q) : q.unclosed = p.unclosed := by
  cases h <;> rfl

theorem isEmpty_eq (h : Behind lead t p q) : q.groups.isEmpty = p.groups.isEmpty := by
  cases h with
  | fresh | outside => rfl
  | @inside tokens before last unclosed groups branches => cases groups <;> rfl

theorem tokens_of_isEmpty (h : Behind lead [] p q) (hgroups : p.groups.isEmpty = true) :
    q.tokens = behindReversed lead p.tokens ∧ p.tokens.reverse ≠ [.leadingComponents] := by
  cases h with
  | fresh => exact ⟨rfl, nofun⟩
  | outside hne hbare =>
    refine ⟨rfl, fun heq => (hbare ?_).1 rfl⟩
    simpa using congrArg List.reverse heq
  | @inside tokens before last unclosed groups branches => cases groups <;> cases hgroups

theorem markUnclosed (h : Behind lead t p q) :
    Behind lead t { p with unclosed := true } { q with unclosed := true } := by
  cases h with
  | fresh hbare => exact .fresh hbare
  | outside hne hbare => exact .outside hne hbare
  | inside groups => exact .inside groups

/-- An element is added, which is no row of components at the start. -/
theorem push (h : Behind lead t p q) (htoken : token ≠ .leadingComponents) (c : Char) (u : Text) :
    Behind lead u (p.push token c) (q.push token c) := by
  have hadd : ∀ (tokens : List Token) (last : Option Char) (unclosed : Bool),
      Behind lead u ⟨token :: tokens, [], last, unclosed⟩
        ⟨token :: behindReversed lead tokens, [], last, unclosed⟩ := by
    intro tokens last unclosed
    have hother : token :: tokens ≠ [.leadingComponents] := by simp [htoken]
    rw [← behindReversed_cons hother]
    exact .outside (List.cons_ne_nil _ _) fun heq => absurd heq hother
  cases h with
  | fresh => exact hadd [] _ _
  | outside => exact hadd _ _ _
  | inside groups => exact .inside groups

theorem pushRows (h : Behind lead t p q) (u : Text) : Behind lead u p.pushRows q.pushRows :=
  have hrow : Token.row ≠ .leadingComponents := nofun
  (h.push hrow '*' u).push hrow '*' u

theorem openGroup (h : Behind lead t p q) (u : Text) : Behind lead u p.openGroup q.openGroup := by
  cases h with
  | fresh => exact .inside []
  | outside => exact .inside []
  | @inside tokens before last unclosed groups branches =>
    exact .inside (⟨[], tokens⟩ :: groups)

theorem closeGroup? (h : Behind lead t p q) (u : Text) :
    Option.Rel (Behind lead u) p.closeGroup? q.closeGroup? := by
  cases h with
  | fresh => exact .none
  | outside => exact .none
  | @inside tokens before last unclosed groups branches =>
    cases groups with
    | nil =>
      refine .some ?_
      rw [← behindReversed_cons (by simp)]
      exact .outside (List.cons_ne_nil _ _) fun heq => by simp at heq
    | cons g groups => exact .some (.inside groups)

theorem comma (h : Behind lead t p q) (u : Text) : Behind lead u p.comma q.comma := by
  have hcomma : Token.literal ',' ≠ .leadingComponents := nofun
  cases h with
  | fresh hbare => exact (fresh hbare).push hcomma ',' u
  | outside hne hbare => exact (outside hne hbare).push hcomma ',' u
  | @inside tokens before last unclosed groups branches =>
    cases groups with
    | nil => exact .inside []
    | cons g groups => exact .inside (_ :: groups)

theorem replaceLast_inside (tokens before : List Token) (last : Option Char) (unclosed : Bool)
    (groups : List Group) (branches : List (List Token)) (token : Token) (c : Char) (u : Text) :
    Behind lead u
      (Progress.replaceLast ⟨tokens, groups ++ [⟨branches, before⟩], last, unclosed⟩ token c)
      (Progress.replaceLast
        ⟨tokens, groups ++ [⟨branches, behindReversed lead before⟩], last, unclosed⟩ token c) := by
  unfold Progress.replaceLast
  dsimp only
  split <;> exact .inside groups

/-- Stars between slashes take the place of the element before them. -/
theorem replaceLast_outside {last : Option Char} {unclosed : Bool} (hne : tokens ≠ [])
    (hbare : tokens = [.leadingComponents] → u ≠ [] ∧ isBareComponents u = false) :
    Behind lead u (Progress.replaceLast ⟨tokens, [], last, unclosed⟩ .innerComponents '/')
      (Progress.replaceLast ⟨behindReversed lead tokens, [], last, unclosed⟩
        .innerComponents '/') := by
  have hkept : Behind lead u ⟨tokens, [], some '/', unclosed⟩
      ⟨behindReversed lead tokens, [], some '/', unclosed⟩ := .outside hne hbare
  have hinner : ∀ tokens, Behind lead u ⟨.innerComponents :: tokens, [], some '/', unclosed⟩
      ⟨.innerComponents :: behindReversed lead tokens, [], some '/', unclosed⟩ := by
    intro tokens
    rw [← behindReversed_cons (by simp)]
    exact .outside (List.cons_ne_nil _ _) fun heq => by simp at heq
  by_cases hleading : tokens = [.leadingComponents]
  · subst hleading
    exact hkept
  · obtain ⟨token, tokens, rfl⟩ := List.exists_cons_of_ne_nil hne
    rw [behindReversed_cons hleading] at hkept ⊢
    cases token with
    | leadingComponents | trailingComponents => exact hkept
    | _ => exact hinner tokens

/-- Two stars are read alike, where they do not end the pattern after a slash. -/
theorem stars (h : Behind lead ('*' :: '*' :: t) p q)
    (hend : ¬EndsInside (q.last.toList ++ '*' :: '*' :: t)) :
    (q.stars t.head?).2 = (p.stars t.head?).2 ∧
      Behind lead (if (p.stars t.head?).2 then t.drop 1 else t) (p.stars t.head?).1
        (q.stars t.head?).1 := by
  have hrows := h.pushRows t
  cases h with
  | fresh hbare =>
    cases t with
    | nil => exact absurd List.suffix_rfl hend
    | cons c t =>
      by_cases hc : c = '/'
      · subst hc
        exact ⟨rfl, .outside (List.cons_ne_nil _ _) fun _ => isBareComponents_stars hbare⟩
      · simpa [Progress.stars, hc] using hrows
  | @outside tokens last unclosed hne hbare =>
    have hempty : tokens.isEmpty = false := by simpa using hne
    have hempty' : (behindReversed lead tokens).isEmpty = false := by
      simpa using behindReversed_ne_nil lead tokens
    by_cases hlast : last = some '/'
    · subst hlast
      cases t with
      | nil => exact absurd List.suffix_rfl hend
      | cons c t =>
        by_cases hc : c = '/'
        · subst hc
          simpa [Progress.stars, hempty, hempty'] using
            replaceLast_outside hne fun heq => isBareComponents_stars (hbare heq).2
        · simpa [Progress.stars, hempty, hempty', hc] using hrows
    · simpa [Progress.stars, hempty, hempty', hlast] using hrows
  | @inside tokens before last unclosed groups branches =>
    -- Inside of braces both readers are alike in all that the stars depend on.
    have hgroups : ∀ before, (groups ++ [⟨branches, before⟩] : List Group).isEmpty = false := by
      intro before
      cases groups <;> rfl
    unfold Progress.stars
    simp only [hgroups]
    split
    · split
      · exact ⟨rfl, .inside groups⟩
      · split
        · exact ⟨rfl, .inside groups⟩
        · exact ⟨rfl, .inside groups⟩
    · split
      · exact ⟨rfl, .inside groups⟩
      · split
        · exact ⟨rfl, replaceLast_inside ..⟩
        · split
          · exact ⟨rfl, replaceLast_inside ..⟩
          · split
            · exact ⟨rfl, replaceLast_inside ..⟩
            · exact ⟨rfl, .inside groups⟩

end Behind

theorem suffix_of_readRanges {negated negated' first pending : Bool}
    {ranges ranges' : List (Char × Char)}
    (h : readRanges negated first pending ranges t = .closed negated' ranges' rest) :
    ']' :: rest <:+ t := by
  fun_induction readRanges negated first pending ranges t with
  | case1 | case4 | case6 => cases h
  | case2 _ _ _ _ _ hclose =>
    obtain ⟨rfl, -⟩ := hclose
    cases h
    exact List.suffix_rfl
  | case3 _ _ _ _ _ _ _ ih => exact (ih h).trans (List.suffix_cons _ _)
  | case5 _ _ _ _ _ _ _ _ _ ih => exact (ih h).trans (List.suffix_cons _ _)
  | case7 _ _ _ _ _ _ _ _ ih => exact (ih h).trans (List.suffix_cons _ _)

/-- The text after a class stands after the bracket that closes it. -/
theorem suffix_of_readClass {negated : Bool} {ranges : List (Char × Char)}
    (h : readClass t = .closed negated ranges rest) : ']' :: rest <:+ t := by
  unfold readClass at h
  split at h
  · exact (suffix_of_readRanges h).trans (List.suffix_cons _ _)
  · exact (suffix_of_readRanges h).trans (List.suffix_cons _ _)
  · exact suffix_of_readRanges h

/-- What two readers make of a text that they go along together, if it can be read at all. -/
def ReadBehind (lead : List Token) : Option (List Token) → Option (List Token) → Prop :=
  Option.Rel fun tokens tokens' =>
    tokens'.reverse = behindReversed lead tokens.reverse ∧ tokens ≠ [.leadingComponents]

/-- The two readers make of the text behind the slash the same, but for its start. -/
theorem parseFrom_behind (h : Behind lead t p q) (hend : ¬EndsInside (q.last.toList ++ t)) :
    ReadBehind lead (parseFrom fuel p t) (parseFrom fuel q t) := by
  fun_induction parseFrom fuel p t generalizing q with
  | case1 => exact .none
  | case2 fuel p hgroups =>
    obtain ⟨htokens, hne⟩ := h.tokens_of_isEmpty hgroups
    rw [parseFrom, h.isEmpty_eq, if_pos hgroups, htokens]
    refine .some ⟨?_, hne⟩
    rw [List.reverse_reverse, List.reverse_reverse]
  | case3 fuel p hgroups =>
    rw [parseFrom, h.isEmpty_eq, if_neg hgroups]
    exact .none
  | case4 fuel p rest ih =>
    simp only [parseFrom, if_true]
    exact ih (h.push (by simp) _ _) (not_endsInside_next hend List.suffix_rfl)
  | case5 fuel p rest p' slash hstars hany ih =>
    obtain ⟨hslash, hbehind⟩ := h.stars hend
    simp only [hstars] at hslash hbehind
    simp only [parseFrom, if_neg hany, if_true, hslash]
    refine ih hbehind ?_
    rcases q.stars_cases rest.head? with ⟨hnone, hlast⟩ | ⟨hsome, hlast, hhead⟩
    · rw [hlast, ← hslash, hnone]
      exact not_endsInside_next hend (List.suffix_cons _ _)
    · obtain ⟨rest, rfl⟩ := List.head?_eq_some_iff.mp hhead
      rw [hlast, ← hslash, hsome]
      exact not_endsInside_next hend ((List.suffix_cons _ _).trans (List.suffix_cons _ _))
  | case6 fuel p rest hstars hany ih =>
    simp only [parseFrom, if_neg hany, if_true]
    exact ih (h.push (by simp) _ _) (not_endsInside_next hend List.suffix_rfl)
  | case7 fuel p c rest hany hstar hclass negated ranges rest' hread ih =>
    rw [← h.unclosed_eq] at hclass
    simp only [parseFrom, if_neg hany, if_neg hstar, if_pos hclass, hread]
    refine ih (h.push (by simp) _ _) (not_endsInside_next hend ?_)
    exact (suffix_of_readClass hread).trans (List.suffix_cons _ _)
  | case8 fuel p c rest hany hstar hclass hread ih =>
    rw [← h.unclosed_eq] at hclass
    simp only [parseFrom, if_neg hany, if_neg hstar, if_pos hclass, hread]
    exact ih (h.push (by simp) _ _).markUnclosed (not_endsInside_next hend List.suffix_rfl)
  | case9 fuel p c rest hany hstar hclass hread =>
    rw [← h.unclosed_eq] at hclass
    simp only [parseFrom, if_neg hany, if_neg hstar, if_pos hclass, hread]
    exact .none
  | case10 fuel p rest hany hstar hclass ih =>
    rw [← h.unclosed_eq] at hclass
    simp only [parseFrom, if_neg hany, if_neg hstar, if_neg hclass, if_true]
    exact ih (h.openGroup _) (not_endsInside_next hend List.suffix_rfl)
  | case11 fuel p rest p' hclosed hany hstar hclass hopen ih =>
    rw [← h.unclosed_eq] at hclass
    simp only [parseFrom, if_neg hany, if_neg hstar, if_neg hclass, if_neg hopen, if_true]
    have hrel := h.closeGroup? rest
    rw [hclosed] at hrel
    cases hq : q.closeGroup? with
    | none => rw [hq] at hrel; cases hrel
    | some q' =>
      rw [hq] at hrel
      cases hrel with
      | some hbehind =>
        refine ih hbehind ?_
        rw [Progress.last_of_closeGroup? hq]
        exact not_endsInside_next hend List.suffix_rfl
  | case12 fuel p rest hclosed hany hstar hclass hopen =>
    rw [← h.unclosed_eq] at hclass
    simp only [parseFrom, if_neg hany, if_neg hstar, if_neg hclass, if_neg hopen, if_true]
    have hrel := h.closeGroup? rest
    rw [hclosed] at hrel
    cases hq : q.closeGroup? with
    | none => exact .none
    | some q' => rw [hq] at hrel; cases hrel
  | case13 fuel p rest hany hstar hclass hopen hclose ih =>
    rw [← h.unclosed_eq] at hclass
    simp only [parseFrom, if_neg hany, if_neg hstar, if_neg hclass, if_neg hopen, if_neg hclose,
      if_true]
    refine ih (h.comma _) ?_
    rw [Progress.last_comma]
    exact not_endsInside_next hend List.suffix_rfl
  | case14 fuel p hany hstar hclass hopen hclose hcomma =>
    rw [← h.unclosed_eq] at hclass
    simp only [parseFrom, if_neg hany, if_neg hstar, if_neg hclass, if_neg hopen, if_neg hclose,
      if_neg hcomma, if_true]
    exact .none
  | case15 fuel p d rest hany hstar hclass hopen hclose hcomma ih =>
    rw [← h.unclosed_eq] at hclass
    simp only [parseFrom, if_neg hany, if_neg hstar, if_neg hclass, if_neg hopen, if_neg hclose,
      if_neg hcomma, if_true]
    exact ih (h.push (by simp) _ _) (not_endsInside_next hend (List.suffix_cons _ _))
  | case16 fuel p c rest hany hstar hclass hopen hclose hcomma hescape ih =>
    rw [← h.unclosed_eq] at hclass
    simp only [parseFrom, if_neg hany, if_neg hstar, if_neg hclass, if_neg hopen, if_neg hclose,
      if_neg hcomma, if_neg hescape]
    exact ih (h.push (by simp) _ _) (not_endsInside_next hend List.suffix_rfl)

/-- Plain characters outside of braces are read as themselves. -/
theorem parseFrom_of_isPlain (hc : IsPlain c) (hp : p.groups = []) :
    parseFrom (fuel + 1) p (c :: t) = parseFrom fuel (p.push (.literal c) c) t := by
  obtain ⟨⟨hany, hstar, hclass, hopen, hescape⟩, hclose⟩ := hc
  have hcomma : p.comma = p.push (.literal ',') ',' := by rw [Progress.comma, hp]
  simp only [parseFrom, if_neg hany, if_neg hstar, hclass, false_and, if_false, if_neg hopen,
    if_neg hclose, if_neg hescape, hcomma]
  split
  · next heq => rw [heq]
  · rfl

theorem parseFrom_append (hdir : ∀ c ∈ dir, IsPlain c) (hp : p.groups = []) :
    parseFrom (dir.length + fuel) p (dir ++ t) =
      parseFrom fuel ⟨(dir.map .literal).reverse ++ p.tokens, [], dir.getLast?.or p.last,
        p.unclosed⟩ t := by
  induction dir generalizing p with
  | nil =>
    obtain ⟨tokens, groups, last, unclosed⟩ := p
    obtain rfl : groups = [] := hp
    simp
  | cons c dir ih =>
    obtain ⟨hc, hrest⟩ := List.forall_mem_cons.mp hdir
    rw [List.cons_append, List.length_cons, Nat.add_right_comm, parseFrom_of_isPlain hc hp,
      ih hrest (by exact hp)]
    have hlast : dir.getLast?.or (some c) = (c :: dir).getLast?.or p.last := by
      cases dir with
      | nil => rfl
      | cons d dir =>
        rw [List.getLast?_cons_cons, List.getLast?_eq_some_getLast (List.cons_ne_nil _ _)]
        rfl
    simp only [Progress.push, hlast, List.map_cons, List.reverse_cons, List.append_assoc,
      List.singleton_append]

/-- Plain characters alone are a pattern of themselves. -/
theorem parse_of_isPlain (hdir : ∀ c ∈ dir, IsPlain c) :
    parse dir = some (dir.map Token.literal) := by
  have hread : parseFrom (dir.length + 1) {} (dir ++ []) = _ := parseFrom_append hdir rfl
  rw [List.append_nil] at hread
  rw [parse, hread, parseFrom]
  simp

/-- Fuel for more steps than there are characters makes no difference. -/
theorem parseFrom_succ (h : t.length < fuel) : parseFrom (fuel + 1) p t = parseFrom fuel p t := by
  fun_induction parseFrom fuel p t with
  | case1 => exact absurd h (Nat.not_lt_zero _)
  | case2 fuel p hgroups => rw [parseFrom, if_pos hgroups]
  | case3 fuel p hgroups => rw [parseFrom, if_neg hgroups]
  | case4 fuel p rest ih =>
    rw [← ih (by simpa using h)]
    simp only [parseFrom, if_true]
  | case5 fuel p rest p' slash hstars hany ih =>
    have hshort : (if slash then rest.drop 1 else rest).length < fuel := by
      have hlength : rest.length + 1 + 1 < fuel + 1 := h
      split
      · rw [List.length_drop]
        omega
      · omega
    rw [← ih hshort]
    simp only [parseFrom, if_neg hany, if_true, hstars]
  | case6 fuel p rest hstars hany ih =>
    rw [← ih (by simpa using h)]
    simp only [parseFrom, if_neg hany, if_true]
  | case7 fuel p c rest hany hstar hclass negated ranges rest' hread ih =>
    have hshort := (suffix_of_readClass hread).length_le
    rw [← ih (by simp only [List.length_cons] at h hshort; omega)]
    simp only [parseFrom, if_neg hany, if_neg hstar, if_pos hclass, hread]
  | case8 fuel p c rest hany hstar hclass hread ih =>
    rw [← ih (by simpa using h)]
    simp only [parseFrom, if_neg hany, if_neg hstar, if_pos hclass, hread]
  | case9 fuel p c rest hany hstar hclass hread =>
    simp only [parseFrom, if_neg hany, if_neg hstar, if_pos hclass, hread]
  | case10 fuel p rest hany hstar hclass ih =>
    rw [← ih (by simpa using h)]
    simp only [parseFrom, if_neg hany, if_neg hstar, if_neg hclass, if_true]
  | case11 fuel p rest p' hclosed hany hstar hclass hopen ih =>
    rw [← ih (by simpa using h)]
    simp only [parseFrom, if_neg hany, if_neg hstar, if_neg hclass, if_neg hopen, if_true, hclosed]
  | case12 fuel p rest hclosed hany hstar hclass hopen =>
    simp only [parseFrom, if_neg hany, if_neg hstar, if_neg hclass, if_neg hopen, if_true, hclosed]
  | case13 fuel p rest hany hstar hclass hopen hclose ih =>
    rw [← ih (by simpa using h)]
    simp only [parseFrom, if_neg hany, if_neg hstar, if_neg hclass, if_neg hopen, if_neg hclose,
      if_true]
  | case14 fuel p hany hstar hclass hopen hclose hcomma =>
    simp only [parseFrom, if_neg hany, if_neg hstar, if_neg hclass, if_neg hopen, if_neg hclose,
      if_neg hcomma, if_true]
  | case15 fuel p d rest hany hstar hclass hopen hclose hcomma ih =>
    rw [← ih (by simp only [List.length_cons] at h; omega)]
    simp only [parseFrom, if_neg hany, if_neg hstar, if_neg hclass, if_neg hopen, if_neg hclose,
      if_neg hcomma, if_true]
  | case16 fuel p c rest hany hstar hclass hopen hclose hcomma hescape ih =>
    rw [← ih (by simpa using h)]
    simp only [parseFrom, if_neg hany, if_neg hstar, if_neg hclass, if_neg hopen, if_neg hclose,
      if_neg hcomma, if_neg hescape]

theorem ReadBehind.eq_map {read read' : Option (List Token)}
    (h : ReadBehind (dir.map Token.literal).reverse read read') :
    read' = read.map (behind dir) ∧ read ≠ some [.leadingComponents] := by
  cases h with
  | none => exact ⟨rfl, nofun⟩
  | @some tokens tokens' hrel =>
    obtain ⟨heq, hne⟩ := hrel
    refine ⟨congrArg some ?_, fun hone => hne (Option.some.inj hone)⟩
    rw [← List.reverse_reverse tokens', heq, reverse_behindReversed, List.reverse_reverse]

/-- A pattern is read behind a directory as it is without it, but for its start. It is not two stars
alone, which match everything. -/
theorem parse_append_slash (hdir : ∀ c ∈ dir, IsPlain c) (hbare : isBareComponents t = false)
    (hend : ¬EndsInside ('/' :: t)) :
    parse (dir ++ '/' :: t) = (parse t).map (behind dir) ∧
      parse t ≠ some [.leadingComponents] := by
  have hplain : ∀ c ∈ dir ++ ['/'], IsPlain c := by
    intro c hc
    rcases List.mem_append.mp hc with hc | hc
    · exact hdir c hc
    · rw [List.mem_singleton.mp hc]
      decide
  have hread : parseFrom ((dir ++ ['/']).length + (t.length + 1)) {} ((dir ++ ['/']) ++ t) = _ :=
    parseFrom_append hplain rfl
  have hlength : (dir ++ '/' :: t).length + 1 = (dir ++ ['/']).length + (t.length + 1) := by
    simp only [List.length_append, List.length_cons, List.length_nil]
    omega
  have hstate : (⟨((dir ++ ['/']).map Token.literal).reverse ++ [], [],
      (dir ++ ['/']).getLast?.or none, false⟩ : Progress) =
      ⟨.literal '/' :: (dir.map Token.literal).reverse, [], some '/', false⟩ := by
    simp
  refine ReadBehind.eq_map ?_
  rw [parse, parse, hlength, List.append_cons dir '/' t, hread, hstate]
  exact parseFrom_behind (.fresh hbare) hend

/-- After stars that stand for components a plain character can be escaped. -/
theorem parse_escape (hc : IsPlain c) (t : Text) :
    parse ("**/\\".toList ++ c :: t) = parse ("**/".toList ++ c :: t) := by
  have hstars : ∀ (fuel : Nat) (u : Text), parseFrom (fuel + 1) {} ("**/".toList ++ u) =
      parseFrom fuel ⟨[.leadingComponents], [], some '/', false⟩ u := by
    intro fuel u
    rfl
  have hescape : ∀ (fuel : Nat) (p : Progress), parseFrom (fuel + 1) p ('\\' :: c :: t) =
      parseFrom fuel (p.push (.literal c) c) t := by
    intro fuel p
    simp [parseFrom]
  calc parse ("**/\\".toList ++ c :: t)
      = parseFrom (t.length + 4) ⟨.literal c :: [.leadingComponents], [], some c, false⟩ t :=
        (hstars (t.length + 5) _).trans (hescape (t.length + 4) _)
    _ = parseFrom (t.length + 3) ⟨.literal c :: [.leadingComponents], [], some c, false⟩ t :=
        parseFrom_succ (by omega)
    _ = parse ("**/".toList ++ c :: t) :=
        ((hstars (t.length + 4) _).trans (parseFrom_of_isPlain hc rfl)).symm

/-! ## Matching -/

open RawText (slash)
open Text (toUtf8 toUtf8_cons)

theorem rests_literal_append (c : Char) (s : RawText) :
    (Token.literal c).rests (String.utf8EncodeChar c ++ s) = [s] := by
  have hprefix : (String.utf8EncodeChar c).isPrefixOf? (String.utf8EncodeChar c ++ s) = some s :=
    List.isPrefixOf?_eq_some_iff_append_eq.mpr rfl
  rw [Token.rests, hprefix]
  rfl

theorem accepts_eq {s : RawText} (h : tokens ≠ [.leadingComponents]) :
    accepts tokens s = (restsOfAll tokens [s]).contains [] := by
  unfold accepts
  split
  · exact absurd rfl h
  · rfl

theorem mem_restsOfAll_literals {s r : RawText} :
    r ∈ restsOfAll (dir.map Token.literal ++ tokens) [toUtf8 dir ++ s] ↔
      r ∈ restsOfAll tokens [s] := by
  induction dir with
  | nil => rfl
  | cons c dir ih =>
    rw [List.map_cons, List.cons_append, mem_restsOfAll_cons, toUtf8_cons, List.append_assoc,
      rests_literal_append]
    simpa using ih

/-- Behind the directory a pattern matches what it matches without it. -/
theorem accepts_behind (h : tokens ≠ [.leadingComponents]) (s : RawText) :
    accepts (behind dir tokens) (toUtf8 dir ++ slash :: s) = accepts tokens s := by
  have hne : behind dir tokens ≠ [.leadingComponents] := by
    unfold behind
    split <;> cases dir <;> simp
  have hmem : [] ∈ restsOfAll (behind dir tokens) [toUtf8 dir ++ slash :: s] ↔
      [] ∈ restsOfAll tokens [s] := by
    unfold behind
    split
    · -- The slash is left to the stars, which then leave what they leave of the rest.
      rw [mem_restsOfAll_literals, mem_restsOfAll_cons, mem_restsOfAll_cons]
      simp [Token.rests]
    · rw [mem_restsOfAll_literals, mem_restsOfAll_cons,
        show slash :: s = String.utf8EncodeChar '/' ++ s from rfl, rests_literal_append]
      simp
  rw [accepts_eq h, accepts_eq hne, Bool.eq_iff_iff, List.contains_iff_mem, List.contains_iff_mem]
  exact hmem

/-- Components and a last one are everything. -/
theorem accepts_leadingComponents_row (s : RawText) :
    accepts [.leadingComponents, .row] s = true := by
  have hlast : ∃ r ∈ s :: afterSlashes s, [] ∈ afterRow r := by
    induction s with
    | nil => exact ⟨[], List.mem_singleton_self [], by simp [afterRow]⟩
    | cons b s ih =>
      obtain ⟨r, hr, hrow⟩ := ih
      by_cases hb : b = slash
      · exact ⟨r, by simp [afterSlashes, hb, hr], hrow⟩
      · rcases List.mem_cons.mp hr with rfl | hr
        · exact ⟨b :: r, List.mem_cons_self, by simp [afterRow, hb, hrow]⟩
        · exact ⟨r, by simp [afterSlashes, hb, hr], hrow⟩
  obtain ⟨r, hr, hrow⟩ := hlast
  rw [accepts_eq (by simp), List.contains_iff_mem, mem_restsOfAll_cons]
  refine ⟨r, hr, ?_⟩
  rw [mem_restsOfAll_cons]
  exact ⟨[], hrow, by simp [restsOfAll]⟩

/-- Characters match only themselves. -/
theorem eq_of_accepts_literals {s : RawText} (h : accepts (dir.map Token.literal) s = true) :
    s = toUtf8 dir := by
  have hmem : [] ∈ restsOfAll (dir.map Token.literal) [s] := by
    rwa [accepts_eq (by cases dir <;> simp), List.contains_iff_mem] at h
  clear h
  induction dir generalizing s with
  | nil => exact (List.mem_singleton.mp hmem).symm
  | cons c dir ih =>
    obtain ⟨r, hr, hrest⟩ := mem_restsOfAll_cons.mp hmem
    rw [exists_append_of_mem_rests hr, toUtf8_cons, ih hrest]

end Typesweep.IgnoreGlob
