import Typesweep.Text

/-!
# Shortest decimals

The text of a binary64 float: as few digits as read back to the same float, and of those the
nearest to it. All comparisons are made on natural numbers: a finite float is `4 * m * 2^(q - 2)`,
and the numbers that read back to it lie between `4 * m - 2` (or `4 * m - 1`, where the floats
below are closer) and `4 * m + 2` in the same unit, both ends included when `m` is even.
-/

namespace Typesweep.Decimal

/-- A positive float as a multiple of a power of two, with the ends of the interval that reads back
to it, all in units of a quarter. -/
structure Span where
  low : Nat
  mid : Nat
  high : Nat
  /-- Whether the ends read back too. -/
  closed : Bool
  /-- The unit is two to this power. -/
  exponent : Int

/-- The bit of a normal float's fraction that is not stored: two to the power of 52. -/
def hiddenBit : Nat := 4503599627370496

/-- The span of the absolute value of a finite float. -/
def Span.ofBits (bits : UInt64) : Span :=
  let fraction : Nat := bits.toNat % hiddenBit
  let biased : Nat := bits.toNat / hiddenBit % 2048
  let m : Nat := if biased = 0 then fraction else fraction + hiddenBit
  let q : Int := if biased = 0 then -1074 else (biased : Int) - 1075
  { low := if fraction = 0 ∧ 1 < biased then 4 * m - 1 else 4 * m - 2
    mid := 4 * m
    high := 4 * m + 2
    closed := decide (m % 2 = 0)
    exponent := q - 2 }

/-- `n` units of the span over `10^k`, as numerator and denominator. -/
def Span.ratio (s : Span) (n : Nat) (k : Int) : Nat × Nat :=
  (n * Nat.pow 2 s.exponent.toNat * Nat.pow 10 (-k).toNat,
    Nat.pow 2 (-s.exponent).toNat * Nat.pow 10 k.toNat)

/-- Whether `d * 10^k` reads back to the float. -/
def Span.holds (s : Span) (d : Nat) (k : Int) : Bool :=
  let (low, den) := s.ratio s.low k
  let (high, _) := s.ratio s.high k
  if s.closed then low ≤ d * den && d * den ≤ high else low < d * den && d * den < high

/-- The power of ten of the first digit of a number below one, searched downwards. -/
def Span.smallPower (s : Span) : Nat → Int → Int
  | 0, k => k
  | fuel + 1, k =>
    let (num, den) := s.ratio s.mid k
    if den ≤ num then k else smallPower s fuel (k - 1)

/-- The power of ten of the first digit. -/
def Span.power (s : Span) : Int :=
  let (num, den) := s.ratio s.mid 0
  if den ≤ num then ((Text.ofNat (num / den)).length : Int) - 1 else s.smallPower 400 (-1)

/-- The nearest of the two multiples of `10^k` around the float that reads back to it. -/
def Span.onGrid? (s : Span) (k : Int) : Option Nat :=
  let (num, den) := s.ratio s.mid k
  let below := num / den
  let above := below + 1
  match s.holds below k, s.holds above k with
  | true, true => if 2 * num ≤ (below + above) * den then some below else some above
  | true, false => some below
  | false, true => some above
  | false, false => none

/-- The first grid with a multiple that reads back, from one digit on. -/
def Span.search (s : Span) : Nat → Int → Nat × Int
  | 0, k => let (num, den) := s.ratio s.mid k; (num / den, k)
  | fuel + 1, k =>
    match s.onGrid? k with
    | some d => (d, k)
    | none => search s fuel (k - 1)

/-- The digits of the shortest decimal, and the place of the point, counted from before the first
digit. -/
def shortest (bits : UInt64) : Text × Int :=
  let s := Span.ofBits bits
  if s.mid = 0 then (['0'], 1)
  else
    let (d, k) := s.search 17 s.power
    let digits := Text.ofNat d
    let kept := Text.trimEnd (· = '0') digits
    (kept, (digits.length : Int) + k)

/-- How a decimal is written: positional while the point falls from `least` places before the first
digit to `most` places after it, else with an exponent. -/
structure Layout where
  /-- Most negative place of the point that is written positionally. -/
  least : Int
  /-- Largest place of the point that is written positionally. -/
  most : Int

/-- Zeros, as many as a number says. -/
def zeros (n : Int) : Text :=
  List.replicate n.toNat '0'

/-- The text of a finite float. A whole number ends in `.0`, an exponent has its sign. -/
def write (layout : Layout) (bits : UInt64) : Text :=
  let (digits, point) := shortest bits
  let sign : Text := if bits.toNat / (2048 * hiddenBit) = 1 then ['-'] else []
  let count : Int := digits.length
  sign ++
    if 0 < point ∧ point ≤ layout.most then
      if count ≤ point then digits ++ zeros (point - count) ++ ['.', '0']
      else digits.take point.toNat ++ '.' :: digits.drop point.toNat
    else if layout.least ≤ point ∧ point ≤ 0 then
      ['0', '.'] ++ zeros (-point) ++ digits
    else
      let exponent := point - 1
      let mantissa := if count ≤ 1 then digits else digits.take 1 ++ '.' :: digits.drop 1
      mantissa ++ ['e', if exponent < 0 then '-' else '+'] ++ Text.ofNat exponent.natAbs

end Typesweep.Decimal
