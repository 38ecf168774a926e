import Mathlib.Data.List.Chain
import Typesweep.Proofs.Glob.Matching

/-!
# Reading patterns

What the reader makes of a pattern, and of the same pattern with a slash and more after it.

* `placed_of_parse`: `**` stands only where the reader lets it.
* `prefix_of_parseFrom`: what has been read is the start of the pattern.
* `parseFrom_append_slash`: the reader goes on after the slash as if it had begun there.
* `accepts_below`: a pattern with `/**/*` after it matches what is below everything that it or the
  pattern itself matches.
-/

namespace Typesweep.Glob

variable {mode : Mode} {n : Nat} {done tokens : List Token} {t : Text} {token : Token}

/-! ## Where `**` stands -/

/-- The character before the reader is the end of the tokens so far, as far as `**` is concerned. -/
def Mode.Fits (done : List Token) : Mode → Prop
  | .outside none => done = []
  | .outside (some '/') => done.head? = some (.char '/') ∨ done.head? = some .anyComponents
  | _ => True

theorem Mode.fits_outside_of_ne {c : Char} (hc : c ≠ '/') (done : List Token) :
    (Mode.outside (some c)).Fits done := by
  unfold Fits
  split
  · next heq => cases heq
  · next heq => exact absurd (Option.some.inj (Mode.outside.inj heq)) hc
  · trivial

theorem Placed.push (h : Placed done.reverse)
    (hlast : token = .anyComponents →
      ∀ a, done.head? = some a → a = .char '/' ∨ a = .anyComponents) :
    Placed (token :: done).reverse := by
  rw [List.reverse_cons]
  refine List.isChain_append.mpr ⟨h, .singleton _, ?_⟩
  intro a ha b hb htoken
  rw [List.getLast?_reverse] at ha
  exact hlast ((Option.some.inj hb).trans htoken) a ha

theorem Placed.addComponents (h : Placed done.reverse) {last : Option Char}
    (hfits : (Mode.outside last).Fits done) (hlast : last = none ∨ last = some '/') :
    Placed (addComponents done).reverse := by
  unfold Glob.addComponents
  split
  · exact h
  · refine h.push fun _ a ha => ?_
    rcases hlast with rfl | rfl
    · rw [show done = [] from hfits] at ha
      cases ha
    · rcases hfits with hhead | hhead
      · exact .inl (Option.some.inj (ha.symm.trans hhead))
      · exact .inr (Option.some.inj (ha.symm.trans hhead))

theorem head?_addComponents (done : List Token) :
    (addComponents done).head? = some .anyComponents := by
  unfold addComponents
  split <;> rfl

theorem placed_of_parseFrom (h : parseFrom mode n done t = .ok tokens) (hdone : Placed done.reverse)
    (hfits : mode.Fits done) : Placed tokens := by
  fun_induction parseFrom mode n done t with
  | case1 last n done =>
    obtain rfl := Except.ok.inj h
    exact hdone
  | case5 start n done rest ih => exact ih h hdone trivial
  | case6 start n done c rest hc ih => exact ih h hdone trivial
  | case7 start n done c rest ih => exact ih h hdone trivial
  | case8 start negated chars n done rest ih =>
    exact ih h (hdone.push nofun) (Mode.fits_outside_of_ne (by decide) _)
  | case9 start negated chars n done c rest hc ih => exact ih h hdone trivial
  | case11 last n done hlast =>
    obtain rfl := Except.ok.inj h
    exact hdone.addComponents hfits hlast
  | case12 last n done hlast rest _ ih =>
    exact ih h (hdone.addComponents hfits hlast) (.inr (head?_addComponents done))
  | case15 last n done rest _ _ ih =>
    exact ih h (hdone.push nofun) (Mode.fits_outside_of_ne (by decide) _)
  | case16 last n done rest _ _ _ ih =>
    exact ih h (hdone.push nofun) (Mode.fits_outside_of_ne (by decide) _)
  | case17 last n done rest _ _ _ _ ih => exact ih h hdone trivial
  | case18 last n done c rest _ _ _ _ _ ih =>
    refine ih h (hdone.push nofun) ?_
    by_cases hc : c = '/'
    · subst hc
      exact .inl rfl
    · exact Mode.fits_outside_of_ne hc _
  | _ => cases h

theorem placed_of_parse {p : Pattern} (h : parse t = .ok p) : Placed p.tokens := by
  unfold parse at h
  cases hparse : parseFrom (.outside none) 0 [] t with
  | error fault =>
    rw [hparse] at h
    cases h
  | ok tokens =>
    rw [hparse] at h
    obtain rfl := Except.ok.inj h
    exact placed_of_parseFrom hparse .nil rfl

/-! ## What was read -/

theorem suffix_addComponents (done : List Token) : done <:+ addComponents done := by
  unfold addComponents
  split
  · exact List.suffix_refl _
  · exact List.suffix_cons _ done

/-- The reader keeps the tokens that it has. -/
theorem prefix_of_parseFrom (h : parseFrom mode n done t = .ok tokens) :
    done.reverse <+: tokens := by
  have hpush : ∀ (token : Token) (done : List Token), done.reverse <+: (token :: done).reverse :=
    fun token done => List.reverse_prefix.mpr (List.suffix_cons token done)
  fun_induction parseFrom mode n done t with
  | case1 last n done =>
    obtain rfl := Except.ok.inj h
    exact List.prefix_refl _
  | case5 _ _ _ _ ih | case7 _ _ _ _ _ ih => exact ih h
  | case6 _ _ _ _ _ _ ih => exact ih h
  | case8 start negated chars n done rest ih => exact (hpush _ done).trans (ih h)
  | case9 _ _ _ _ _ _ _ _ ih => exact ih h
  | case11 last n done hlast =>
    obtain rfl := Except.ok.inj h
    exact List.reverse_prefix.mpr (suffix_addComponents done)
  | case12 last n done hlast rest _ ih =>
    exact (List.reverse_prefix.mpr (suffix_addComponents done)).trans (ih h)
  | case15 last n done rest _ _ ih => exact (hpush _ done).trans (ih h)
  | case16 last n done rest _ _ _ ih => exact (hpush _ done).trans (ih h)
  | case17 last n done rest _ _ _ _ ih => exact ih h
  | case18 last n done c rest _ _ _ _ _ ih => exact (hpush _ done).trans (ih h)
  | _ => cases h

/-! ## A slash and more -/

/-- Where the reader is after a slash, if it had read `tokens` before it: the slash after `**`
belongs to it. -/
def AfterSlash (tokens done : List Token) : Prop :=
  (tokens.getLast? ≠ some .anyComponents ∧ done = .char '/' :: tokens.reverse) ∨
    (tokens.getLast? = some .anyComponents ∧ done = tokens.reverse)

theorem getLast?_ne_of_cons {c : Char} (h : (c :: t).getLast? ≠ some '/') :
    t.getLast? ≠ some '/' := by
  intro ht
  rw [List.getLast?_cons, ht] at h
  exact h rfl

theorem parseFrom_append_slash (h : parseFrom mode n done t = .ok tokens)
    (hslash : t.getLast? ≠ some '/')
    (hdone : ∀ last, mode = .outside last → t = [] → done.head? ≠ some .anyComponents) (s : Text) :
    ∃ n' done', parseFrom mode n done (t ++ '/' :: s) = parseFrom (.outside '/') n' done' s ∧
      AfterSlash tokens done' := by
  fun_induction parseFrom mode n done t with
  | case1 last n done =>
    obtain rfl := Except.ok.inj h
    refine ⟨n + 1, .char '/' :: done, rfl, .inl ⟨?_, by rw [List.reverse_reverse]⟩⟩
    rw [List.getLast?_reverse]
    exact hdone last rfl rfl
  | case5 start n done rest ih =>
    simpa [parseFrom] using ih h (getLast?_ne_of_cons hslash) nofun
  | case6 start n done c rest hc ih =>
    simpa [parseFrom, hc] using ih h (getLast?_ne_of_cons hslash) nofun
  | case7 start n done c rest ih =>
    simpa [parseFrom] using ih h (getLast?_ne_of_cons hslash) nofun
  | case8 start negated chars n done rest ih =>
    simpa [parseFrom] using ih h (getLast?_ne_of_cons hslash) fun _ _ _ => nofun
  | case9 start negated chars n done c rest hc ih =>
    simpa [parseFrom, hc] using ih h (getLast?_ne_of_cons hslash) nofun
  | case11 last n done hlast =>
    obtain rfl := Except.ok.inj h
    refine ⟨n + 3, addComponents done, by simp [parseFrom, hlast], .inr ⟨?_, ?_⟩⟩
    · rw [List.getLast?_reverse, head?_addComponents]
    · rw [List.reverse_reverse]
  | case12 last n done hlast rest _ ih =>
    have hrest : rest ≠ [] := fun heq => hslash (by rw [heq]; rfl)
    have htail := getLast?_ne_of_cons (getLast?_ne_of_cons (getLast?_ne_of_cons hslash))
    simpa [parseFrom, hlast] using ih h htail fun _ _ heq => absurd heq hrest
  | case15 last n done rest hrow hpair ih =>
    -- A star at the end is followed by a slash now, which does not make it a part of `**` either.
    have hnext : ∀ more, rest ++ '/' :: s ≠ '*' :: more := fun more heq => by
      cases rest with
      | nil => cases heq
      | cons d rest =>
        obtain rfl := (List.cons.inj heq).1
        exact hpair rest rfl rfl
    have hread : parseFrom (.outside last) n done ('*' :: rest ++ '/' :: s) =
        parseFrom (.outside '*') (n + 1) (.anySequence :: done) (rest ++ '/' :: s) := by
      rw [List.cons_append, parseFrom, if_pos rfl]
      · exact fun more _ heq => hnext _ heq
      · exact fun more _ heq => hnext _ heq
    rw [hread]
    exact ih h (getLast?_ne_of_cons hslash) fun _ _ _ => nofun
  | case16 last n done rest _ _ _ ih =>
    simpa [parseFrom] using ih h (getLast?_ne_of_cons hslash) fun _ _ _ => nofun
  | case17 last n done rest _ _ _ _ ih =>
    simpa [parseFrom] using ih h (getLast?_ne_of_cons hslash) nofun
  | case18 last n done c rest _ _ hstar hany hclass ih =>
    simpa [parseFrom, hstar, hany, hclass] using
      ih h (getLast?_ne_of_cons hslash) fun _ _ _ => nofun
  | _ => cases h

theorem parse_eq_ok_iff {p : Pattern} :
    parse t = .ok p ↔ parseFrom (.outside none) 0 [] t = .ok p.tokens := by
  rw [parse]
  cases parseFrom (.outside none) 0 [] t with
  | error fault => simp [Except.map]
  | ok tokens =>
    cases p
    simp [Except.map]

/-- The elements of a pattern with `/**/*` after it. A `**` at its end is not repeated, unless it is
the whole pattern. -/
theorem tokens_of_parse_below {p q : Pattern} (hp : parse t = .ok p)
    (hslash : t.getLast? ≠ some '/') (hq : parse (t ++ "/**/*".toList) = .ok q) :
    (p.tokens.getLast? ≠ some .anyComponents ∧
      q.tokens = p.tokens ++ [.char '/', .anyComponents, .anySequence]) ∨
    ∃ start, p.tokens = start ++ [.anyComponents] ∧
      (q.tokens = start ++ [.anyComponents, .anySequence] ∨
        q.tokens = start ++ [.anyComponents, .anyComponents, .anySequence]) := by
  rw [parse_eq_ok_iff] at hp hq
  obtain ⟨n, done, hread, hafter⟩ := parseFrom_append_slash hp hslash (by simp) "**/*".toList
  have htokens : q.tokens = (addComponents done).reverse ++ [.anySequence] := by
    have hsame := hread.symm.trans hq
    simpa [parseFrom] using (Except.ok.inj hsame).symm
  rcases hafter with ⟨hlast, rfl⟩ | ⟨hlast, rfl⟩
  · refine .inl ⟨hlast, htokens.trans ?_⟩
    simp [addComponents]
  · obtain ⟨start, hstart⟩ := List.getLast?_eq_some_iff.mp hlast
    refine .inr ⟨start, hstart, ?_⟩
    rw [htokens, hstart, List.reverse_append, List.reverse_singleton, List.singleton_append]
    cases hreverse : start.reverse with
    | nil =>
      obtain rfl := List.reverse_eq_nil_iff.mp hreverse
      exact .inr rfl
    | cons token tokens =>
      refine .inl ?_
      rw [addComponents, ← hreverse, List.reverse_cons, List.reverse_reverse, List.append_assoc]
      rfl

/-- What lies below something that a pattern matches, or that it matches with `/**/*` after it, is
matched with `/**/*` after it. -/
theorem accepts_below {p q : Pattern} (hp : parse t = .ok p) (hslash : t.getLast? ≠ some '/')
    (hq : parse (t ++ "/**/*".toList) = .ok q) {dir : Text}
    (h : p.accepts false dir = true ∨ q.accepts false dir = true) (below : Text) :
    q.accepts false (dir ++ '/' :: below) = true := by
  rw [accepts_iff_matches (placed_of_parse hp), accepts_iff_matches (placed_of_parse hq)] at h
  rw [accepts_iff_matches (placed_of_parse hq)]
  have hany : ∀ tail, tail = [.anyComponents, .anySequence] ∨
      tail = [.anyComponents, .anyComponents, .anySequence] → ∀ t, Matches tail t := by
    rintro tail (rfl | rfl) t
    · exact matches_components_sequence t
    · exact .cons covers_anyComponents_nil (matches_components_sequence t)
  have hbelow : ∀ t, Matches [.char '/', .anyComponents, .anySequence] ('/' :: t) := fun t =>
    .cons (covers_char_iff.mpr rfl) (matches_components_sequence t)
  rcases tokens_of_parse_below hp hslash hq with ⟨hlast, htokens⟩ | ⟨start, hstart, htokens⟩
  · rw [htokens] at h ⊢
    rcases h with h | h
    · exact h.append hlast (hbelow below)
    · refine h.change_end (List.cons_ne_nil _ _) fun v hv => ?_
      obtain ⟨rest, rfl⟩ : ∃ rest, v = '/' :: rest := by
        cases hv with
        | cons hrow _ =>
          obtain rfl := covers_char_iff.mp hrow
          exact ⟨_, rfl⟩
      exact hbelow _
  · obtain ⟨tail, htail, hq⟩ : ∃ tail, (tail = [.anyComponents, .anySequence] ∨
        tail = [.anyComponents, .anyComponents, .anySequence]) ∧ q.tokens = start ++ tail := by
      rcases htokens with htokens | htokens
      · exact ⟨_, .inl rfl, htokens⟩
      · exact ⟨_, .inr rfl, htokens⟩
    rw [hq] at h ⊢
    rcases h with h | h
    · rw [hstart] at h
      exact h.change_end (List.cons_ne_nil _ _) fun v _ => hany tail htail _
    · exact h.change_end (by rcases htail with rfl | rfl <;> simp) fun v _ => hany tail htail _

end Typesweep.Glob
