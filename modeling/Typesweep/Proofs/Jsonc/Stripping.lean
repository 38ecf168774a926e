import Typesweep.Proofs.Jsonc.Commented

/-!
# What stripping makes JSON

A text that stripping turns into a JSON text is one with comments: every token that is left was
there, and what stood between the tokens are gaps and extra commas. Together with what stripping
leaves of a text with comments this says which texts it makes JSON.

* `Commented.of_spells`: the texts whose stripped form is written from tokens.
* `strip_isText_iff`: the main result.
-/

namespace Typesweep.Jsonc

open Json

variable {c : Char} {s t body rest out : Text} {token : Token} {tokens : List Token}

/-! ## From JSON to comments -/

/-- Where a closer follows, what is left starts with a blank or with that closer. -/
theorem head_of_closerFollows {mode : Mode} (h : closerFollows mode t = true)
    (hcleaned : cleaned mode t = c :: out) : Text.isBlank c = true ∨ isCloser c = true := by
  fun_induction closerFollows mode t with
  | case1 => cases h
  | case2 rest ih =>
    rw [cleaned] at hcleaned
    exact ih h hcleaned
  | case3 rest ih =>
    rw [cleaned] at hcleaned
    cases hcleaned
    exact .inl (by decide)
  | case4 d rest hline hblock ih =>
    rw [Bool.or_eq_true, Bool.and_eq_true] at h
    have hd : Text.isBlank d = true ∨ isCloser d = true := h.symm.imp_left And.left
    have hquote : d ≠ '"' := by
      rintro rfl
      revert hd
      decide
    have hcomma : d ≠ ',' := by
      rintro rfl
      revert hd
      decide
    rw [cleaned, if_neg hquote, if_neg fun h => hcomma h.1] at hcleaned
    · cases hcleaned
      exact hd
    · exact hline
    · exact hblock
  | case5 | case6 => cases h
  | case7 rest ih =>
    rw [cleaned, if_pos rfl] at hcleaned
    cases hcleaned
    exact .inl (by decide)
  | case8 d rest hline ih =>
    rw [cleaned, if_neg hline] at hcleaned
    exact ih h hcleaned
  | case9 star rest ih =>
    rw [cleaned, if_pos rfl] at hcleaned
    cases hcleaned
    exact .inl (by decide)
  | case10 star d rest hline hend ih =>
    rw [cleaned, if_neg hline, if_pos hend] at hcleaned
    exact ih h hcleaned
  | case11 star d rest hline hend ih =>
    rw [cleaned, if_neg hline, if_neg hend] at hcleaned
    exact ih h hcleaned

/-- A comment at the start of a text is ended or not. -/
theorem exists_comment (h : ¬ StartsNoComment c rest) :
    OpenEnd (c :: rest) ∨
      (∃ body later, c :: rest = '/' :: '/' :: (body ++ '\n' :: later) ∧ '\n' ∉ body) ∨
      ∃ body later, c :: rest = '/' :: '*' :: (body ++ '*' :: '/' :: later) ∧
        ¬ ['*', '/'] <:+: body := by
  unfold StartsNoComment at h
  push Not at h
  obtain ⟨rfl, hmark⟩ := h
  cases rest with
  | nil => cases hmark nofun
  | cons d rest =>
    by_cases hline : d = '/'
    · subst hline
      by_cases hmem : '\n' ∈ rest
      · obtain ⟨body, later, rfl, hbody⟩ := List.eq_append_cons_of_mem hmem
        exact .inr (.inl ⟨body, later, rfl, hbody⟩)
      · exact .inl (.line hmem)
    · obtain rfl : d = '*' := Option.some.inj (hmark fun heq => hline (Option.some.inj heq))
      rcases exists_blockBody rest with hopen | ⟨body, later, rfl, hbody⟩
      · exact .inl (.block hopen)
      · exact .inr (.inr ⟨body, later, rfl, hbody⟩)

theorem mem_newlines (h : c ∈ newlines body) : c = '\n' := by
  simpa using (List.mem_filter.mp h).2

/-- A comment that is not ended leaves white space only. -/
theorem OpenEnd.isSpace_of_mem_cleaned (h : OpenEnd t) :
    ∀ c ∈ cleaned .code t, isSpace c = true := by
  intro c hc
  cases h with
  | nothing => cases hc
  | line hbody =>
    rw [(cleaned_openLine hbody).1] at hc
    cases hc
  | block hbody =>
    rw [(cleaned_openBlock hbody).1] at hc
    rcases List.mem_cons.mp hc with rfl | hc
    · decide
    · rw [mem_newlines hc]
      decide

/-- An inert character that is left was there. -/
theorem exists_of_cleaned_eq_cons (hc : IsInert c) (h : cleaned .code t = c :: out) :
    ∃ rest, t = c :: rest ∧ cleaned .code rest = out := by
  have hspace : ∀ d, c = d → isSpace d = true → False := by
    rintro d rfl hd
    rw [hc.not_isSpace] at hd
    cases hd
  cases t with
  | nil => cases h
  | cons d rest =>
    by_cases hplain : StartsNoComment d rest
    · rw [cleaned_code hplain] at h
      split at h
      · obtain rfl := (List.cons.inj h).1
        exact absurd hc (by decide)
      · split at h
        · next hcomma =>
          rcases head_of_closerFollows hcomma.2 h with hblank | hcloser
          · rw [hc.1] at hblank
            cases hblank
          · rw [not_isCloser hc] at hcloser
            cases hcloser
        · obtain ⟨rfl, rfl⟩ := List.cons.inj h
          exact ⟨rest, rfl, rfl⟩
    · rcases exists_comment hplain with hopen | ⟨body, later, heq, hbody⟩ |
        ⟨body, later, heq, hbody⟩
      · have hmem := hopen.isSpace_of_mem_cleaned c (h ▸ List.mem_cons_self)
        exact (hspace c rfl hmem).elim
      · rw [heq, (cleaned_line hbody later).1] at h
        exact (hspace _ (List.cons.inj h).1.symm (by decide)).elim
      · rw [heq, (cleaned_block hbody later).1] at h
        exact (hspace _ (List.cons.inj h).1.symm (by decide)).elim

theorem exists_of_cleaned_eq_append (hs : ∀ c ∈ s, IsInert c) (h : cleaned .code t = s ++ out) :
    ∃ rest, t = s ++ rest ∧ cleaned .code rest = out := by
  induction s generalizing t with
  | nil => exact ⟨t, rfl, h⟩
  | cons c s ih =>
    obtain ⟨later, rfl, hlater⟩ := exists_of_cleaned_eq_cons (hs c List.mem_cons_self) h
    obtain ⟨rest, rfl, hrest⟩ := ih (fun d hd => hs d (List.mem_cons_of_mem c hd)) hlater
    exact ⟨rest, rfl, hrest⟩

/-- A character of a string that is left was there. -/
theorem exists_of_cleaned_string_eq_cons (h : cleaned .string t = c :: out) :
    ∃ rest, t = c :: rest ∧
      cleaned (if c = '\\' then .escaped else if c = '"' then .code else .string) rest = out := by
  cases t with
  | nil => cases h
  | cons d rest =>
    have hd : d = c := by
      rw [cleaned] at h
      split at h
      · exact (List.cons.inj h).1
      · split at h <;> exact (List.cons.inj h).1
    subst hd
    refine ⟨rest, rfl, ?_⟩
    rw [cleaned] at h
    split at h
    · next hbackslash => rw [if_pos hbackslash, (List.cons.inj h).2]
    · next hbackslash =>
      split at h
      · next hquote => rw [if_neg hbackslash, if_pos hquote, (List.cons.inj h).2]
      · next hquote => rw [if_neg hbackslash, if_neg hquote, (List.cons.inj h).2]

theorem exists_of_cleaned_string_eq_append (hs : ∀ c ∈ s, c ≠ '\\' ∧ c ≠ '"')
    (h : cleaned .string t = s ++ out) : ∃ rest, t = s ++ rest ∧ cleaned .string rest = out := by
  induction s generalizing t with
  | nil => exact ⟨t, rfl, h⟩
  | cons c s ih =>
    obtain ⟨hbackslash, hquote⟩ := hs c List.mem_cons_self
    obtain ⟨later, rfl, hlater⟩ := exists_of_cleaned_string_eq_cons h
    rw [if_neg hbackslash, if_neg hquote] at hlater
    obtain ⟨rest, rfl, hrest⟩ := ih (fun d hd => hs d (List.mem_cons_of_mem c hd)) hlater
    exact ⟨rest, rfl, hrest⟩

theorem exists_of_cleaned_escaped_eq_cons (h : cleaned .escaped t = c :: out) :
    ∃ rest, t = c :: rest ∧ cleaned .string rest = out := by
  cases t with
  | nil => cases h
  | cons d rest =>
    rw [cleaned] at h
    obtain ⟨rfl, rfl⟩ := List.cons.inj h
    exact ⟨rest, rfl, rfl⟩

/-- The rest of a string that is left was there, up to and with its closing quote. -/
theorem exists_of_cleaned_string (hbody : IsStringBody body)
    (h : cleaned .string t = body ++ '"' :: out) :
    ∃ rest, t = body ++ '"' :: rest ∧ cleaned .code rest = out := by
  induction hbody generalizing t with
  | nil => exact exists_of_cleaned_string_eq_cons h
  | char hquote hbackslash _ _ ih =>
    obtain ⟨later, rfl, hlater⟩ := exists_of_cleaned_string_eq_cons h
    rw [if_neg hbackslash, if_neg hquote] at hlater
    obtain ⟨rest, rfl, hrest⟩ := ih hlater
    exact ⟨rest, rfl, hrest⟩
  | escape _ _ ih =>
    obtain ⟨escaped, rfl, hescaped⟩ := exists_of_cleaned_string_eq_cons h
    obtain ⟨later, rfl, hlater⟩ := exists_of_cleaned_escaped_eq_cons hescaped
    obtain ⟨rest, rfl, hrest⟩ := ih hlater
    exact ⟨rest, rfl, hrest⟩
  | @unicode digits body hlength hdigits _ ih =>
    obtain ⟨escaped, rfl, hescaped⟩ := exists_of_cleaned_string_eq_cons h
    obtain ⟨marked, rfl, hmarked⟩ := exists_of_cleaned_escaped_eq_cons hescaped
    obtain ⟨later, rfl, hlater⟩ := exists_of_cleaned_string_eq_append
      (fun d hd => ne_of_hexDigit? (hdigits d hd)) (hmarked.trans (List.append_assoc ..))
    obtain ⟨rest, rfl, hrest⟩ := ih hlater
    exact ⟨rest, by simp, hrest⟩

theorem spells_of_newlines (h : Spells tokens (newlines body ++ t)) : Spells tokens t := by
  induction body with
  | nil => exact h
  | cons c body ih =>
    by_cases hc : c = '\n'
    · subst hc
      exact ih (h.of_space (by decide))
    · exact ih (by simpa [newlines, hc] using h)

/-- A string that is left was there. -/
theorem exists_of_string_eq_token (hvalid : token.Valid)
    (h : '"' :: cleaned .string rest = token.text ++ out) :
    ∃ later, '"' :: rest = token.text ++ later ∧ cleaned .code later = out := by
  cases token with
  | string body =>
    have hbody : cleaned .string rest = body ++ '"' :: out := by simpa [Token.text] using h
    obtain ⟨later, rfl, hlater⟩ := exists_of_cleaned_string hvalid hbody
    exact ⟨later, by simp [Token.text], hlater⟩
  | scalar s =>
    obtain ⟨hne, hinert⟩ := isInert_of_valid_scalar hvalid
    obtain ⟨c, s, rfl⟩ := List.exists_cons_of_ne_nil hne
    obtain ⟨rfl, _⟩ := List.cons.inj h
    exact absurd (hinert _ List.mem_cons_self) (by decide)
  | beginArray | endArray | beginObject | endObject | colon | comma => cases (List.cons.inj h).1

/-- A token that is left and is no string was there. -/
theorem exists_of_cons_eq_token (hvalid : token.Valid) (hquote : c ≠ '"')
    (h : c :: cleaned .code rest = token.text ++ out) :
    ∃ later, c :: rest = token.text ++ later ∧ cleaned .code later = out := by
  cases token with
  | string body => exact absurd (List.cons.inj h).1 hquote
  | scalar s =>
    obtain ⟨hne, hinert⟩ := isInert_of_valid_scalar hvalid
    obtain ⟨d, s, rfl⟩ := List.exists_cons_of_ne_nil hne
    obtain ⟨rfl, hs⟩ := List.cons.inj h
    obtain ⟨later, rfl, hlater⟩ :=
      exists_of_cleaned_eq_append (fun d hd => hinert d (List.mem_cons_of_mem _ hd)) hs
    exact ⟨later, rfl, hlater⟩
  | beginArray | endArray | beginObject | endObject | colon | comma =>
    obtain ⟨rfl, hout⟩ := List.cons.inj h
    exact ⟨rest, rfl, hout⟩

/-- A text that stripping makes JSON is one with comments. -/
theorem Commented.of_spells (h : Spells tokens (cleaned .code t)) : Commented tokens t := by
  induction hlength : t.length using Nat.strong_induction_on generalizing t tokens with
  | _ n ih =>
    cases t with
    | nil =>
      rw [h.eq_nil (by simp)]
      exact .done .nothing
    | cons c rest =>
      have ih : ∀ {later : Text} {tokens' : List Token}, later.length ≤ rest.length →
          Spells tokens' (cleaned .code later) → Commented tokens' later :=
        fun hle hlater => ih _ (by rw [← hlength, List.length_cons]; omega) hlater rfl
      by_cases hplain : StartsNoComment c rest
      · rw [cleaned_code hplain] at h
        split at h
        · next hquote =>
          subst hquote
          obtain ⟨token, later, out, hvalid, hout, rfl, heq⟩ := h.exists_token (by decide)
          obtain ⟨text, htext, rfl⟩ := exists_of_string_eq_token hvalid heq
          rw [htext]
          exact .token hvalid (ih (length_le_of_eq_token hvalid htext) hout)
        · next hquote =>
          split at h
          · next hcomma =>
            -- The comma was extra: what follows it is a gap and a closing token.
            obtain ⟨rfl, hfollows⟩ := hcomma
            obtain ⟨g, closer, later, out, hg, hcloser, hlater, rfl, rfl⟩ :=
              (ih le_rfl h).exists_closer hfollows
            exact .extraComma hcloser hg hlater
          · cases hc : isSpace c with
            | true =>
              have hlater := ih le_rfl (h.of_space hc)
              exact hlater.gap (.space hc .nil)
            | false =>
              obtain ⟨token, later, out, hvalid, hout, rfl, heq⟩ := h.exists_token hc
              obtain ⟨text, htext, rfl⟩ := exists_of_cons_eq_token hvalid hquote heq
              rw [htext]
              exact .token hvalid (ih (length_le_of_eq_token hvalid htext) hout)
      · rcases exists_comment hplain with hopen | ⟨body, later, heq, hbody⟩ |
          ⟨body, later, heq, hbody⟩
        · rw [h.eq_nil hopen.isSpace_of_mem_cleaned]
          exact .done hopen
        · have hle : later.length ≤ rest.length := by
            rw [(List.cons.inj heq).2]
            simp
            omega
          rw [heq, (cleaned_line hbody later).1] at h
          rw [heq]
          have hgap : Gap ('/' :: '/' :: (body ++ ['\n'])) := .line hbody .nil
          simpa using (ih hle (h.of_space (by decide))).gap hgap
        · have hle : later.length ≤ rest.length := by
            rw [(List.cons.inj heq).2]
            simp
            omega
          rw [heq, (cleaned_block hbody later).1] at h
          rw [heq]
          have hgap : Gap ('/' :: '*' :: (body ++ ['*', '/'])) := .block hbody .nil
          simpa using (ih hle (spells_of_newlines (h.of_space (by decide)))).gap hgap

/-! ## The main result -/

theorem Commented.head?_ne_mark (h : Commented tokens t) (hcommas : NoCommaBeforeCloser tokens) :
    t.head? ≠ some '\ufeff' := by
  intro hmark
  obtain ⟨rest, rfl⟩ := List.head?_eq_some_iff.mp hmark
  -- The mark would be left, and no token starts with it.
  have hspells := h.spells_cleaned hcommas
  rw [cleaned_code (startsNoComment_of_ne (by decide) rest), if_neg (by decide),
    if_neg (by simp)] at hspells
  obtain ⟨token, _, _, hvalid, _, _, heq⟩ := hspells.exists_token (by decide)
  obtain ⟨c, s, htext, _, hne⟩ := Token.exists_head hvalid
  rw [htext] at heq
  exact hne (List.cons.inj heq).1.symm

/-- A JSON text is one with comments that has none. -/
theorem Commented.of_json (h : Spells tokens t) : Commented tokens t := by
  induction h with
  | nil => exact .done .nothing
  | space hc _ ih => exact ih.gap (.space hc .nil)
  | token hvalid _ ih => exact ih.token hvalid

/-- A JSON text is left as it is. -/
theorem cleaned_of_json (h : Spells tokens t) (hcommas : NoCommaBeforeCloser tokens) :
    cleaned .code t = t := by
  induction h with
  | nil => rfl
  | space hc _ ih => rw [(cleaned_space hc _).1, ih hcommas]
  | @token token tokens t hvalid ht ih =>
    obtain ⟨hnext, htail⟩ := List.isChain_cons.mp hcommas
    by_cases hcomma : token = .comma
    · subst hcomma
      have hfollows := (Commented.of_json ht).not_closerFollows (hnext · · rfl)
      exact (cleaned_comma hfollows).trans (congrArg _ (ih htail))
    · rw [cleaned_token hvalid hcomma, ih htail]

/-- The main result. Stripping a text gives a JSON text exactly if the text, after a byte order mark
perhaps, has the same tokens with comments and extra commas between them; and it changes no JSON
text. -/
theorem strip_isText_iff (t : Text) :
    (∀ tokens, IsText tokens (strip t) ↔
      IsValue tokens ∧ ∃ u, (t = u ∨ t = '\ufeff' :: u) ∧ Commented tokens u) ∧
    (∀ tokens, IsText tokens t → strip t = t) := by
  refine ⟨fun tokens => ⟨?_, ?_⟩, ?_⟩
  · rintro ⟨hvalue, hspells⟩
    refine ⟨hvalue, ?_⟩
    by_cases hmark : t.head? = some '\ufeff'
    · obtain ⟨rest, rfl⟩ := List.head?_eq_some_iff.mp hmark
      rw [strip_mark] at hspells
      exact ⟨rest, .inr rfl, .of_spells hspells⟩
    · rw [strip_eq_cleaned hmark] at hspells
      exact ⟨t, .inl rfl, .of_spells hspells⟩
  · rintro ⟨hvalue, u, hu, hcommented⟩
    have hcommas := hvalue.isTidy.chain
    refine ⟨hvalue, ?_⟩
    rcases hu with rfl | rfl
    · rw [strip_eq_cleaned (hcommented.head?_ne_mark hcommas)]
      exact hcommented.spells_cleaned hcommas
    · rw [strip_mark]
      exact hcommented.spells_cleaned hcommas
  · rintro tokens ⟨hvalue, hspells⟩
    have hcommas := hvalue.isTidy.chain
    rw [strip_eq_cleaned ((Commented.of_json hspells).head?_ne_mark hcommas)]
    exact cleaned_of_json hspells hcommas

/-- A list whose last comma is extra, with comments around that comma and one that is not ended. -/
theorem strip_isText_iff_extraComma :
    IsText [.beginArray, .string "//".toList, .comma, .scalar "1".toList, .endArray]
      (strip "\ufeff[\"//\",1/**/,//]\n]/* ".toList) := by
  refine ((strip_isText_iff _).1 _).mpr ⟨?_, "[\"//\",1/**/,//]\n]/* ".toList, .inr rfl, ?_⟩
  · exact @IsValue.array [[.string "//".toList], [.scalar "1".toList]]
      (by simp [IsValue.string, IsValue.scalar])
  · have hend : Commented [] "/* ".toList := .done (@OpenEnd.block [' '] (by decide))
    have hclose : Commented [.endArray] ",//]\n]/* ".toList :=
      .extraComma (.inl rfl) (@Gap.line [']'] [] (by decide) .nil) hend
    have hone : Commented [.scalar "1".toList, .endArray] "1/**/,//]\n]/* ".toList :=
      .token (.inr ⟨[], ['1'], [], [], rfl, by decide,
        ⟨⟨by decide, List.all_eq_true.mp (by decide)⟩, by decide⟩, .inl rfl, .inl rfl⟩)
        (.gap (@Gap.block [] [] (by decide) .nil) hclose)
    have hslashes : IsStringBody "//".toList :=
      .char (by decide) (by decide) (by decide) (.char (by decide) (by decide) (by decide) .nil)
    exact .token trivial (@Commented.token (.string "//".toList) _ _ hslashes (.token trivial hone))

end Typesweep.Jsonc
