import Typesweep.Text

/-!
# Shell arithmetic

Expressions over whole numbers of 64 bits, with the operators of C. A comparison is one or zero,
and a variable that is unset counts as zero.

* `Arithmetic.eval?`: the value of an expression.
-/

namespace Typesweep.Shell.Arithmetic

/-- A token of an expression. -/
inductive Token
  | number (n : Int)
  | symbol (s : Text)
  deriving DecidableEq, Repr

/-- The symbols, longer ones before their beginnings. -/
def symbols : List Text :=
  ["<<", ">>", "<=", ">=", "==", "!=", "&&", "||", "+", "-", "*", "/", "%", "<", ">", "&", "|",
    "^", "!", "~", "(", ")"].map String.toList

/-- The number that digits write in a base. -/
def numberIn? (base : Nat) (digits : Text) : Option Nat :=
  digits.foldlM (fun n c =>
    match Text.hexDigit? c with
    | some d => if d < base then some (n * base + d) else none
    | none => none) 0

/-- The number that a numeral writes: in base sixteen after `0x`, in base eight after `0`. -/
def numeral? : Text → Option Nat
  | '0' :: 'x' :: digits => numberIn? 16 digits
  | '0' :: digits => numberIn? 8 digits
  | digits => numberIn? 10 digits

/-- The number that a variable holds. -/
def held? (value : Text) : Option Int :=
  match Text.trim (fun c => c = ' ' || c = '\t' || c = '\n') value with
  | [] => some 0
  | '-' :: digits => (numeral? digits).map fun n => -(n : Int)
  | '+' :: digits => (numeral? digits).map Int.ofNat
  | digits => (numeral? digits).map Int.ofNat

/-- The tokens of an expression; `length` bounds their number. -/
def tokensFrom (value : Text → Text) : Nat → Text → Option (List Token)
  | 0, _ => some []
  | _, [] => some []
  | length + 1, c :: rest =>
    if c = ' ' ∨ c = '\t' ∨ c = '\n' then tokensFrom value length rest
    else if Text.isDigit c then do
      let (digits, later) := (c :: rest).span Char.isAlphanum
      let n ← numeral? digits
      return .number n :: (← tokensFrom value length later)
    else if c.isAlpha || c = '_' then do
      let (name, later) := (c :: rest).span fun c => c.isAlphanum || c = '_'
      let n ← held? (value name)
      return .number n :: (← tokensFrom value length later)
    else do
      let s ← symbols.find? (·.isPrefixOf (c :: rest))
      return .symbol s :: (← tokensFrom value length ((c :: rest).drop s.length))

/-- The number of 64 bits that a number wraps to. -/
def wrap (n : Int) : Int :=
  n.bmod UInt64.size

/-- One or zero. -/
def truth (b : Bool) : Int :=
  if b then 1 else 0

/-- An operation on the bits of two numbers. -/
def onBits (f : BitVec 64 → BitVec 64 → BitVec 64) (a b : Int) : Int :=
  (f (BitVec.ofInt 64 a) (BitVec.ofInt 64 b)).toInt

/-- What a symbol between two numbers stands for; none for a division by zero. -/
def combine? (s : Text) (a b : Int) : Option Int :=
  match String.ofList s with
  | "||" => some (truth (a != 0 || b != 0))
  | "&&" => some (truth (a != 0 && b != 0))
  | "|" => some (onBits (· ||| ·) a b)
  | "^" => some (onBits (· ^^^ ·) a b)
  | "&" => some (onBits (· &&& ·) a b)
  | "==" => some (truth (a == b))
  | "!=" => some (truth (a != b))
  | "<" => some (truth (a < b))
  | "<=" => some (truth (a ≤ b))
  | ">" => some (truth (b < a))
  | ">=" => some (truth (b ≤ a))
  | "<<" => some (wrap (a <<< (b % 64).toNat))
  | ">>" => some (a >>> (b % 64).toNat)
  | "+" => some (wrap (a + b))
  | "-" => some (wrap (a - b))
  | "*" => some (wrap (a * b))
  | "/" => if b = 0 then none else some (wrap (a.tdiv b))
  | "%" => if b = 0 then none else some (a.tmod b)
  | _ => none

/-- The symbols between numbers, those that bind less tightly first. -/
def levels : List (List Text) :=
  [["||"], ["&&"], ["|"], ["^"], ["&"], ["==", "!="], ["<", "<=", ">", ">="], ["<<", ">>"],
    ["+", "-"], ["*", "/", "%"]].map fun level => level.map String.toList

mutual

/-- An operand, with the symbols before it. -/
def operandAt : Nat → List Token → Option (Int × List Token)
  | 0, _ => none
  | _, [] => none
  | _ + 1, .number n :: rest => some (n, rest)
  | fuel + 1, .symbol s :: rest => do
    match String.ofList s with
    | "(" => do
      let (n, rest) ← levelAt fuel levels rest
      match rest with
      | .symbol [')'] :: rest => return (n, rest)
      | _ => none
    | "-" => do
      let (n, rest) ← operandAt fuel rest
      return (wrap (-n), rest)
    | "+" => operandAt fuel rest
    | "!" => do
      let (n, rest) ← operandAt fuel rest
      return (truth (n == 0), rest)
    | "~" => do
      let (n, rest) ← operandAt fuel rest
      return (-n - 1, rest)
    | _ => none

/-- An expression of the given levels. -/
def levelAt : Nat → List (List Text) → List Token → Option (Int × List Token)
  | 0, _, _ => none
  | fuel + 1, [], tokens => operandAt fuel tokens
  | fuel + 1, level :: tighter, tokens => do
    let (n, rest) ← levelAt fuel tighter tokens
    levelFrom fuel level tighter n rest

/-- The rest of an expression after its value so far. -/
def levelFrom :
    Nat → List Text → List (List Text) → Int → List Token → Option (Int × List Token)
  | 0, _, _, _, _ => none
  | fuel + 1, level, tighter, n, tokens =>
    match tokens with
    | .symbol s :: rest =>
      if level.contains s then do
        let (m, rest) ← levelAt fuel tighter rest
        levelFrom fuel level tighter (← combine? s n m) rest
      else some (n, tokens)
    | _ => some (n, tokens)

end

/-- The value of an expression, by the values of variables. An empty expression is zero. -/
def eval? (value : Text → Text) (t : Text) : Option Int := do
  let tokens ← tokensFrom value (t.length + 1) t
  if tokens.isEmpty then return 0
  let (n, rest) ← levelAt (16 * (tokens.length + 1)) levels tokens
  if rest.isEmpty then return n else none

end Typesweep.Shell.Arithmetic
