import Mathlib.Data.Bool.AllAny
import Mathlib.Data.List.Chain
import Typesweep.Json.Reader

/-!
# The grammar of JSON

A JSON text is a value, written as tokens with white space between them. What the tokens of a value
are does not depend on how they are written, so the grammar comes in two parts.

* `Json.Token`, `Json.Token.Valid`: the tokens, with their texts.
* `Json.Spells`: a text writes tokens.
* `Json.IsValue`: tokens make up a value.
* `Json.IsValue.isTidy`: in a value no comma stands before a closing bracket or brace.
-/

namespace Typesweep.Json

/-! ## Tokens -/

/-- A token of a JSON text. -/
inductive Token
  | beginArray
  | endArray
  | beginObject
  | endObject
  | colon
  | comma
  /-- A string, as it is written between its quotes. -/
  | string (body : Text)
  /-- A literal name or a number, as it is written. -/
  | scalar (text : Text)
  deriving DecidableEq, Repr

/-- The text of a token. -/
def Token.text : Token → Text
  | .beginArray => ['[']
  | .endArray => [']']
  | .beginObject => ['\x7b']
  | .endObject => ['\x7d']
  | .colon => [':']
  | .comma => [',']
  | .string body => '"' :: (body ++ ['"'])
  | .scalar text => text

/-- Whether a token ends an array or an object. -/
def Token.IsCloser (token : Token) : Prop :=
  token = .endArray ∨ token = .endObject

/-- What may stand between the quotes of a string. -/
inductive IsStringBody : Text → Prop
  | nil : IsStringBody []
  | char {c : Char} {body : Text} : c ≠ '"' → c ≠ '\\' → 0x20 ≤ c.toNat → IsStringBody body →
      IsStringBody (c :: body)
  | escape {c : Char} {body : Text} : c ∈ "\"\\/bfnrt".toList → IsStringBody body →
      IsStringBody ('\\' :: c :: body)
  | unicode {digits body : Text} : digits.length = 4 →
      (∀ d ∈ digits, (Text.hexDigit? d).isSome = true) → IsStringBody body →
      IsStringBody ('\\' :: 'u' :: (digits ++ body))

/-- A row of decimal digits, at least one. -/
def IsDigits (t : Text) : Prop :=
  t ≠ [] ∧ ∀ c ∈ t, Text.isDigit c = true

/-- The digits of a number before its point: zero starts no others. -/
def IsInteger (t : Text) : Prop :=
  IsDigits t ∧ (t.head? = some '0' → t = ['0'])

/-- What may follow the integer digits of a number: a point and digits. -/
def IsFraction (t : Text) : Prop :=
  t = [] ∨ ∃ digits, t = '.' :: digits ∧ IsDigits digits

/-- What may end a number: an exponent. -/
def IsExponent (t : Text) : Prop :=
  t = [] ∨ ∃ mark sign digits, t = mark :: (sign ++ digits) ∧ mark ∈ ['e', 'E'] ∧
    sign ∈ [[], ['+'], ['-']] ∧ IsDigits digits

/-- A number, as it is written. -/
def IsNumber (t : Text) : Prop :=
  ∃ sign integer fraction exponent, t = sign ++ integer ++ fraction ++ exponent ∧
    sign ∈ [[], ['-']] ∧ IsInteger integer ∧ IsFraction fraction ∧ IsExponent exponent

/-- The literal names. -/
def literalNames : List Text := ["null".toList, "true".toList, "false".toList]

/-- A token is written as the grammar says. -/
def Token.Valid : Token → Prop
  | .string body => IsStringBody body
  | .scalar text => text ∈ literalNames ∨ IsNumber text
  | _ => True

/-! ## Texts -/

/-- A text is made of tokens, with white space before, between and after them. -/
inductive Spells : List Token → Text → Prop
  | nil : Spells [] []
  | space {c : Char} {tokens : List Token} {t : Text} : isSpace c = true → Spells tokens t →
      Spells tokens (c :: t)
  | token {token : Token} {tokens : List Token} {t : Text} : token.Valid → Spells tokens t →
      Spells (token :: tokens) (token.text ++ t)

/-- Tokens make up one value. -/
inductive IsValue : List Token → Prop
  | scalar (text : Text) : IsValue [.scalar text]
  | string (body : Text) : IsValue [.string body]
  | array {items : List (List Token)} : (∀ item ∈ items, IsValue item) →
      IsValue (.beginArray :: ([.comma].intercalate items ++ [.endArray]))
  | object {fields : List (Text × List Token)} : (∀ field ∈ fields, IsValue field.2) →
      IsValue (.beginObject :: ([.comma].intercalate
        (fields.map fun field => .string field.1 :: .colon :: field.2) ++ [.endObject]))

/-- A JSON text with its tokens. -/
def IsText (tokens : List Token) (t : Text) : Prop :=
  IsValue tokens ∧ Spells tokens t

/-! ## Commas -/

/-- No comma stands before a token that ends an array or an object. -/
def NoCommaBeforeCloser (tokens : List Token) : Prop :=
  tokens.IsChain fun a b => a = .comma → ¬ b.IsCloser

/-- Tokens that may be put after a comma and before a closing token. -/
structure IsTidy (tokens : List Token) : Prop where
  ne_nil : tokens ≠ []
  head : ∀ token ∈ tokens.head?, ¬ token.IsCloser
  last : ∀ token ∈ tokens.getLast?, token ≠ .comma
  chain : NoCommaBeforeCloser tokens

namespace IsTidy

variable {token : Token} {tokens later : List Token} {items : List (List Token)}

theorem singleton (hcloser : ¬ token.IsCloser) (hcomma : token ≠ .comma) : IsTidy [token] where
  ne_nil := List.cons_ne_nil _ _
  head := by simpa using hcloser
  last := by simpa using hcomma
  chain := List.isChain_singleton token

theorem cons (hcloser : ¬ token.IsCloser) (hcomma : token ≠ .comma) (h : IsTidy tokens) :
    IsTidy (token :: tokens) where
  ne_nil := List.cons_ne_nil _ _
  head := by simpa using hcloser
  last := by
    obtain ⟨first, rest, rfl⟩ := List.exists_cons_of_ne_nil h.ne_nil
    rw [List.getLast?_cons_cons]
    exact h.last
  chain := List.isChain_cons.mpr ⟨fun _ _ heq => absurd heq hcomma, h.chain⟩

theorem append_comma (h : IsTidy tokens) (hlater : IsTidy later) :
    IsTidy (tokens ++ .comma :: later) where
  ne_nil := List.append_ne_nil_of_left_ne_nil h.ne_nil _
  head := by
    rw [List.head?_append_of_ne_nil _ h.ne_nil]
    exact h.head
  last := by
    obtain ⟨first, rest, rfl⟩ := List.exists_cons_of_ne_nil hlater.ne_nil
    rw [List.getLast?_append_of_ne_nil _ (List.cons_ne_nil _ _), List.getLast?_cons_cons]
    exact hlater.last
  chain := by
    refine List.isChain_append.mpr ⟨h.chain, List.isChain_cons.mpr ⟨?_, hlater.chain⟩, ?_⟩
    · exact fun token htoken _ => hlater.head token htoken
    · exact fun token htoken _ _ heq => absurd heq (h.last token htoken)

theorem intercalate (hne : items ≠ []) (h : ∀ item ∈ items, IsTidy item) :
    IsTidy ([Token.comma].intercalate items) := by
  induction items with
  | nil => exact absurd rfl hne
  | cons first rest ih =>
    have hfirst := h first List.mem_cons_self
    cases rest with
    | nil => simpa [List.intercalate] using hfirst
    | cons second rest =>
      have hrest := ih (List.cons_ne_nil _ _) fun item hitem =>
        h item (List.mem_cons_of_mem _ hitem)
      simpa [List.intercalate, List.intersperse] using hfirst.append_comma hrest

/-- Brackets around tidy tokens, or around none. -/
theorem enclose {opener closer : Token} (hopener : ¬ opener.IsCloser ∧ opener ≠ .comma)
    (hcloser : closer ≠ .comma) (h : tokens = [] ∨ IsTidy tokens) :
    IsTidy (opener :: (tokens ++ [closer])) where
  ne_nil := List.cons_ne_nil _ _
  head := by simpa using hopener.1
  last := by simpa [List.getLast?_cons] using hcloser
  chain := by
    refine List.isChain_cons.mpr ⟨fun _ _ heq => absurd heq hopener.2, ?_⟩
    rcases h with rfl | h
    · exact List.isChain_singleton closer
    · refine List.isChain_append.mpr ⟨h.chain, List.isChain_singleton closer, ?_⟩
      exact fun token htoken _ _ heq => absurd heq (h.last token htoken)

end IsTidy

theorem IsValue.isTidy {tokens : List Token} (h : IsValue tokens) : IsTidy tokens := by
  induction h with
  | scalar text => exact .singleton (by simp [Token.IsCloser]) nofun
  | string body => exact .singleton (by simp [Token.IsCloser]) nofun
  | @array items _ ih =>
    refine .enclose ⟨by simp [Token.IsCloser], nofun⟩ nofun ?_
    rcases items.eq_nil_or_concat with rfl | ⟨_, _, rfl⟩
    · exact .inl rfl
    · exact .inr (.intercalate (by simp) ih)
  | @object fields _ ih =>
    refine .enclose ⟨by simp [Token.IsCloser], nofun⟩ nofun ?_
    rcases fields.eq_nil_or_concat with rfl | ⟨_, _, rfl⟩
    · exact .inl rfl
    · refine .inr (.intercalate (by simp) fun item hitem => ?_)
      obtain ⟨field, hfield, rfl⟩ := List.mem_map.mp hitem
      have hcolon : IsTidy (.colon :: field.2) :=
        .cons (by simp [Token.IsCloser]) nofun (ih field hfield)
      exact hcolon.cons (by simp [Token.IsCloser]) nofun

/-! ## How tokens start -/

variable {c : Char} {s t rest out : Text} {token : Token} {tokens : List Token}

theorem isBlank_of_isSpace (h : isSpace c = true) : Text.isBlank c = true := by
  simp only [isSpace, Bool.or_eq_true, decide_eq_true_eq] at h
  rcases h with ((rfl | rfl) | rfl) | rfl <;> decide

/-- The characters that start tokens other than literal names and numbers, and those that may stand
before a JSON text or in a text that is like one. -/
def marks : List Char :=
  ['"', ',', ':', '[', ']', '\x7b', '\x7d', '/', '\ufeff']

/-- A character that is no blank and no mark, such as those of literal names and numbers. -/
def IsInert (c : Char) : Prop :=
  Text.isBlank c = false ∧ c ∉ marks

instance : DecidablePred IsInert :=
  fun _ => inferInstanceAs (Decidable (_ ∧ _))

theorem IsInert.not_isSpace (h : IsInert c) : isSpace c = false := by
  by_contra hspace
  have hblank := isBlank_of_isSpace (by simpa using hspace)
  rw [h.1] at hblank
  cases hblank

theorem IsInert.ne_mark {mark : Char} (h : IsInert c) (hmark : mark ∈ marks) : c ≠ mark := by
  rintro rfl
  exact h.2 hmark

theorem isInert_of_isDigit (h : Text.isDigit c = true) : IsInert c := by
  obtain ⟨n, hn⟩ : ∃ n : Fin 10, c = Char.ofNat ('0'.toNat + n.val) := by
    unfold Text.isDigit Text.digit? at h
    split at h
    · next hrange =>
      obtain ⟨hlow, hhigh⟩ := hrange
      have hlow' : '0'.toNat ≤ c.toNat := hlow
      have hhigh' : c.toNat ≤ '9'.toNat := hhigh
      refine ⟨⟨c.toNat - '0'.toNat, ?_⟩, ?_⟩
      · have : '0'.toNat = 48 := rfl
        have : '9'.toNat = 57 := rfl
        omega
      · rw [Nat.add_sub_cancel' hlow', Char.ofNat_toNat]
    · cases h
  subst hn
  revert n
  decide

/-- The characters of literal names and numbers. -/
theorem isInert_of_valid_scalar (h : (Token.scalar s).Valid) : s ≠ [] ∧ ∀ c ∈ s, IsInert c := by
  rcases h with hname | hnumber
  · have hnames : ∀ s ∈ literalNames, s ≠ [] ∧ s.all (IsInert ·) = true := by decide
    exact (hnames s hname).imp_right List.all_iff_forall_prop.mp
  · obtain ⟨sign, integer, fraction, exponent, rfl, hsign, ⟨⟨hne, hinteger⟩, _⟩, hfraction,
      hexponent⟩ := hnumber
    have hsigns : ∀ sign ∈ [[], ['+'], ['-']], ∀ c ∈ sign, IsInert c := by
      simp only [← List.all_iff_forall_prop]
      decide
    have hmarks : ∀ mark ∈ ['e', 'E'], IsInert mark := List.all_iff_forall_prop.mp (by decide)
    have hdigits : ∀ {digits : Text}, IsDigits digits → ∀ c ∈ digits, IsInert c :=
      fun hds c hc => isInert_of_isDigit (hds.2 c hc)
    refine ⟨by simp [hne], fun c hc => ?_⟩
    simp only [List.mem_append] at hc
    rcases hc with ((hc | hc) | hc) | hc
    · refine hsigns sign ?_ c hc
      rcases List.mem_cons.mp hsign with rfl | hminus
      · exact List.mem_cons_self
      · rw [List.mem_singleton.mp hminus]
        decide
    · exact isInert_of_isDigit (hinteger c hc)
    · rcases hfraction with rfl | ⟨digits, rfl, hds⟩
      · cases hc
      · rcases List.mem_cons.mp hc with rfl | hc
        · decide
        · exact hdigits hds c hc
    · rcases hexponent with rfl | ⟨mark, sign', digits, rfl, hmark, hsign', hds⟩
      · cases hc
      · rcases List.mem_cons.mp hc with rfl | hc
        · exact hmarks c hmark
        · rcases List.mem_append.mp hc with hc | hc
          · exact hsigns sign' hsign' c hc
          · exact hdigits hds c hc

theorem Token.valid_of_isCloser (h : token.IsCloser) : token.Valid := by
  rcases h with rfl | rfl <;> trivial

theorem Token.ne_comma_of_isCloser (h : token.IsCloser) : token ≠ .comma := by
  rcases h with rfl | rfl <;> exact nofun

/-- How a token starts: with no white space, and with no byte order mark. -/
theorem Token.exists_head (h : token.Valid) :
    ∃ c s, token.text = c :: s ∧ isSpace c = false ∧ c ≠ '\ufeff' := by
  cases token with
  | scalar text =>
    obtain ⟨hne, hinert⟩ := isInert_of_valid_scalar h
    obtain ⟨c, s, rfl⟩ := List.exists_cons_of_ne_nil hne
    have hc := hinert c List.mem_cons_self
    exact ⟨c, s, rfl, hc.not_isSpace, hc.ne_mark (by decide)⟩
  | string | beginArray | endArray | beginObject | endObject | colon | comma =>
    exact ⟨_, _, rfl, by decide, by decide⟩

theorem Spells.of_space (h : Spells tokens (c :: t)) (hc : isSpace c = true) : Spells tokens t := by
  generalize ht : c :: t = u at h
  cases h with
  | nil => cases ht
  | space _ h =>
    cases ht
    exact h
  | token hvalid _ =>
    obtain ⟨d, s, htext, hspace, _⟩ := Token.exists_head hvalid
    rw [htext] at ht
    cases ht
    rw [hc] at hspace
    cases hspace

/-- A text that does not start with white space starts with the first token. -/
theorem Spells.exists_token (h : Spells tokens (c :: out)) (hc : isSpace c = false) :
    ∃ (token : Token) (later : List Token) (t : Text), token.Valid ∧ Spells later t ∧
      tokens = token :: later ∧ c :: out = token.text ++ t := by
  generalize hu : c :: out = u at h
  cases h with
  | nil => cases hu
  | space hspace _ =>
    cases hu
    rw [hc] at hspace
    cases hspace
  | @token token later t hvalid ht => exact ⟨token, later, t, hvalid, ht, rfl, rfl⟩

theorem Spells.eq_nil (h : Spells tokens t) (ht : ∀ c ∈ t, isSpace c = true) : tokens = [] := by
  induction h with
  | nil => rfl
  | space _ _ ih => exact ih fun c hc => ht c (List.mem_cons_of_mem _ hc)
  | token hvalid _ _ =>
    obtain ⟨c, s, htext, hspace, _⟩ := Token.exists_head hvalid
    rw [ht c (by simp [htext])] at hspace
    cases hspace

theorem length_le_of_eq_token (hvalid : token.Valid) (h : c :: rest = token.text ++ out) :
    out.length ≤ rest.length := by
  obtain ⟨d, s, htext, _, _⟩ := Token.exists_head hvalid
  rw [htext] at h
  rw [(List.cons.inj h).2, List.append_eq, List.length_append]
  exact Nat.le_add_left _ _

end Typesweep.Json
