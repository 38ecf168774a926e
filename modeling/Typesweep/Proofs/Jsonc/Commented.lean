import Typesweep.Proofs.Json.Grammar
import Typesweep.Proofs.Jsonc.Lookahead

/-!
# Texts with comments

A text with comments and extra commas is written from the same tokens as a JSON text, with more
allowed between them (`Commented`). Stripping leaves those tokens (`Commented.spells_cleaned`): of a
gap between tokens it leaves white space, and every token it passes on.
-/

namespace Typesweep.Jsonc

open Json

/-! ## Texts with comments -/

/-- White space and complete comments. -/
inductive Gap : Text → Prop
  | nil : Gap []
  | space {c : Char} {g : Text} : isSpace c = true → Gap g → Gap (c :: g)
  | line {body g : Text} : '\n' ∉ body → Gap g → Gap ('/' :: '/' :: (body ++ '\n' :: g))
  | block {body g : Text} : ¬ ['*', '/'] <:+: body → Gap g →
      Gap ('/' :: '*' :: (body ++ '*' :: '/' :: g))

/-- What may end a text: nothing, or a comment that is not ended. -/
inductive OpenEnd : Text → Prop
  | nothing : OpenEnd []
  | line {body : Text} : '\n' ∉ body → OpenEnd ('/' :: '/' :: body)
  | block {body : Text} : ¬ ['*', '/'] <:+: body → OpenEnd ('/' :: '*' :: body)

/-- A text is made of tokens, with white space and comments between them, and with at most one more
comma before each token that ends an array or an object. -/
inductive Commented : List Token → Text → Prop
  | done {t : Text} : OpenEnd t → Commented [] t
  | gap {g t : Text} {tokens : List Token} : Gap g → Commented tokens t → Commented tokens (g ++ t)
  | token {token : Token} {tokens : List Token} {t : Text} : token.Valid → Commented tokens t →
      Commented (token :: tokens) (token.text ++ t)
  | extraComma {closer : Token} {tokens : List Token} {g t : Text} : closer.IsCloser → Gap g →
      Commented tokens t → Commented (closer :: tokens) (',' :: (g ++ (closer.text ++ t)))

variable {c : Char} {g s t body : Text} {token : Token} {tokens : List Token}

theorem Gap.append (hg : Gap g) (ht : Gap t) : Gap (g ++ t) := by
  induction hg with
  | nil => exact ht
  | space hc _ ih => exact .space hc ih
  | line hbody _ ih =>
    rw [List.cons_append, List.cons_append, List.append_assoc]
    exact .line hbody ih
  | block hbody _ ih =>
    rw [List.cons_append, List.cons_append, List.append_assoc]
    exact .block hbody ih

/-! ## Gaps -/

/-- White space is passed on. -/
theorem cleaned_space (h : isSpace c = true) (t : Text) :
    cleaned .code (c :: t) = c :: cleaned .code t ∧
      closerFollows .code (c :: t) = closerFollows .code t := by
  have hblank := isBlank_of_isSpace h
  simp only [isSpace, Bool.or_eq_true, decide_eq_true_eq] at h
  rcases h with ((rfl | rfl) | rfl) | rfl <;> simp [isCloser, hblank]

theorem Gap.closerFollows_append (h : Gap g) (t : Text) :
    closerFollows .code (g ++ t) = closerFollows .code t := by
  induction h with
  | nil => rfl
  | space hc _ ih => rw [List.cons_append, (cleaned_space hc _).2, ih]
  | line hbody _ ih =>
    rw [List.cons_append, List.cons_append, List.append_assoc]
    exact (cleaned_line hbody _).2.trans ih
  | block hbody _ ih =>
    rw [List.cons_append, List.cons_append, List.append_assoc]
    exact (cleaned_block hbody _).2.trans ih

theorem spells_newlines (h : Spells tokens t) (body : Text) :
    Spells tokens (newlines body ++ t) := by
  induction body with
  | nil => exact h
  | cons c body ih =>
    by_cases hc : c = '\n'
    · subst hc
      exact .space (by decide) ih
    · simpa [newlines, hc] using ih

/-- A gap leaves white space only. -/
theorem Gap.spells_cleaned (hg : Gap g) (h : Spells tokens (cleaned .code t)) :
    Spells tokens (cleaned .code (g ++ t)) := by
  induction hg with
  | nil => exact h
  | space hc _ ih =>
    rw [List.cons_append, (cleaned_space hc _).1]
    exact .space hc ih
  | @line body g hbody _ ih =>
    rw [List.cons_append, List.cons_append, List.append_assoc]
    show Spells tokens (cleaned .code ('/' :: '/' :: (body ++ '\n' :: (g ++ t))))
    rw [(cleaned_line hbody _).1]
    exact .space (by decide) ih
  | @block body g hbody _ ih =>
    rw [List.cons_append, List.cons_append, List.append_assoc]
    show Spells tokens (cleaned .code ('/' :: '*' :: (body ++ '*' :: '/' :: (g ++ t))))
    rw [(cleaned_block hbody _).1]
    exact .space (by decide) (spells_newlines ih body)

/-! ## Tokens -/

theorem not_isCloser (h : IsInert c) : isCloser c = false := by
  simp [isCloser, h.ne_mark (show '\x7d' ∈ marks by decide), h.ne_mark (show ']' ∈ marks by decide)]

theorem cleaned_inert (h : IsInert c) (t : Text) :
    cleaned .code (c :: t) = c :: cleaned .code t := by
  rw [cleaned_code (startsNoComment_of_ne (h.ne_mark (by decide)) t),
    if_neg (h.ne_mark (by decide)), if_neg fun hcomma => h.ne_mark (by decide) hcomma.1]

theorem cleaned_scalar (h : ∀ c ∈ s, IsInert c) (t : Text) :
    cleaned .code (s ++ t) = s ++ cleaned .code t := by
  induction s with
  | nil => rfl
  | cons c s ih =>
    rw [List.cons_append, cleaned_inert (h c List.mem_cons_self),
      ih fun d hd => h d (List.mem_cons_of_mem c hd), List.cons_append]

theorem ne_of_hexDigit? (h : (Text.hexDigit? c).isSome = true) : c ≠ '\\' ∧ c ≠ '"' := by
  constructor <;> rintro rfl <;> simp [Text.hexDigit?] at h

theorem cleaned_string (h : IsStringBody body) (t : Text) :
    cleaned .string (body ++ '"' :: t) = body ++ '"' :: cleaned .code t := by
  induction h with
  | nil => simp
  | char hquote hbackslash _ _ ih => simp [hquote, hbackslash, ih]
  | escape _ _ ih => simp [ih]
  | @unicode digits body hlength hdigits _ ih =>
    have hplain : ∀ {ds : Text}, (∀ d ∈ ds, (Text.hexDigit? d).isSome = true) →
        cleaned .string (ds ++ (body ++ '"' :: t)) = ds ++ (body ++ '"' :: cleaned .code t) := by
      intro ds hds
      induction ds with
      | nil => exact ih
      | cons d ds ihds =>
        obtain ⟨hbackslash, hquote⟩ := ne_of_hexDigit? (hds d List.mem_cons_self)
        rw [List.cons_append, cleaned, if_neg hbackslash, if_neg hquote,
          ihds fun d' hd' => hds d' (List.mem_cons_of_mem d hd'), List.cons_append]
    simp [hplain hdigits, List.append_assoc]

/-- A token other than a comma is passed on. -/
theorem cleaned_token (hvalid : token.Valid) (hcomma : token ≠ .comma) (t : Text) :
    cleaned .code (token.text ++ t) = token.text ++ cleaned .code t := by
  cases token with
  | comma => exact absurd rfl hcomma
  | string body =>
    rw [Token.text, List.cons_append, List.append_assoc, List.singleton_append,
      cleaned_code (startsNoComment_of_ne (by decide) _), if_pos rfl, cleaned_string hvalid]
    simp
  | scalar text => exact cleaned_scalar (isInert_of_valid_scalar hvalid).2 t
  | beginArray | endArray | beginObject | endObject | colon =>
    simp [Token.text]

theorem cleaned_comma (h : closerFollows .code t = false) :
    cleaned .code (',' :: t) = ',' :: cleaned .code t := by
  simp [h]

/-- Only before a token that ends an array or an object does a closer follow. -/
theorem closerFollows_token (hvalid : token.Valid) (t : Text) :
    closerFollows .code (token.text ++ t) = true ↔ token.IsCloser := by
  unfold Token.IsCloser
  cases token with
  | scalar text =>
    obtain ⟨hne, hinert⟩ := isInert_of_valid_scalar hvalid
    obtain ⟨c, text, rfl⟩ := List.exists_cons_of_ne_nil hne
    have hc := hinert c List.mem_cons_self
    have hslash : c ≠ '/' := hc.ne_mark (by decide)
    simp [Token.text, closerFollows_code, startsNoComment_of_ne hslash, hc.1, not_isCloser hc]
  | string | beginArray | endArray | beginObject | endObject | colon | comma =>
    simp [Token.text, isCloser, show Text.isBlank '"' = false by decide,
      show Text.isBlank '[' = false by decide, show Text.isBlank '\x7b' = false by decide,
      show Text.isBlank ':' = false by decide, show Text.isBlank ',' = false by decide]

/-! ## From comments to JSON -/

/-- If a closer follows, then the text goes on with a gap and a closing token. -/
theorem Commented.exists_closer (h : Commented tokens t) (hfollows : closerFollows .code t = true) :
    ∃ (g : Text) (closer : Token) (later : List Token) (rest : Text), Gap g ∧ closer.IsCloser ∧
      Commented later rest ∧ tokens = closer :: later ∧ t = g ++ (closer.text ++ rest) := by
  induction h with
  | done hend =>
    cases hend with
    | nothing => cases hfollows
    | line hbody =>
      rw [(cleaned_openLine hbody).2] at hfollows
      cases hfollows
    | block hbody =>
      rw [(cleaned_openBlock hbody).2] at hfollows
      cases hfollows
  | @gap g t _ hg _ ih =>
    rw [hg.closerFollows_append] at hfollows
    obtain ⟨g', closer, later, rest, hg', hcloser, hlater, htokens, rfl⟩ := ih hfollows
    exact ⟨g ++ g', closer, later, rest, hg.append hg', hcloser, hlater, htokens,
      (List.append_assoc ..).symm⟩
  | @token token tokens t hvalid ht =>
    exact ⟨[], token, tokens, t, .nil, (closerFollows_token hvalid t).mp hfollows, ht, rfl, rfl⟩
  | extraComma =>
    rw [closerFollows_code (startsNoComment_of_ne (by decide) _)] at hfollows
    cases hfollows

/-- After a comma that is no extra one no closer follows. -/
theorem Commented.not_closerFollows (h : Commented tokens t)
    (hnext : ∀ token ∈ tokens.head?, ¬ token.IsCloser) : closerFollows .code t = false := by
  by_contra hfollows
  obtain ⟨_, closer, later, _, _, hcloser, _, rfl, _⟩ := h.exists_closer (by simpa using hfollows)
  exact hnext closer rfl hcloser

/-- Stripping a text with comments leaves its tokens, if none of their commas looks like an extra
one. -/
theorem Commented.spells_cleaned (h : Commented tokens t) (hcommas : NoCommaBeforeCloser tokens) :
    Spells tokens (cleaned .code t) := by
  induction h with
  | done hend =>
    cases hend with
    | nothing => exact .nil
    | line hbody =>
      rw [(cleaned_openLine hbody).1]
      exact .nil
    | @block body hbody =>
      rw [(cleaned_openBlock hbody).1, ← List.append_nil (newlines body)]
      exact .space (by decide) (spells_newlines .nil body)
  | gap hg _ ih => exact hg.spells_cleaned (ih hcommas)
  | @token token tokens t hvalid ht ih =>
    obtain ⟨hnext, htail⟩ := List.isChain_cons.mp hcommas
    by_cases hcomma : token = .comma
    · subst hcomma
      have hfollows := ht.not_closerFollows (hnext · · rfl)
      show Spells _ (cleaned .code (',' :: t))
      rw [cleaned_comma hfollows]
      exact .token hvalid (ih htail)
    · rw [cleaned_token hvalid hcomma]
      exact .token hvalid (ih htail)
  | @extraComma closer tokens g t hcloser hg _ ih =>
    have hvalid := Token.valid_of_isCloser hcloser
    have hfollows : closerFollows .code (g ++ (closer.text ++ t)) = true := by
      rw [hg.closerFollows_append]
      exact (closerFollows_token hvalid t).mpr hcloser
    rw [cleaned_code (startsNoComment_of_ne (by decide) _), if_neg (by decide),
      if_pos ⟨rfl, hfollows⟩]
    refine hg.spells_cleaned ?_
    rw [cleaned_token hvalid (Token.ne_comma_of_isCloser hcloser)]
    exact .token hvalid (ih (List.isChain_cons.mp hcommas).2)

end Typesweep.Jsonc
