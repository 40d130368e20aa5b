import TreeScript.Decimal.Basic

set_option autoImplicit false

/- The fewest decimal digits that still name a double. -/
namespace TreeScript.Decimal

/-- The rationals that round to `mantissa · 2 ^ exponent`; the ends belong to them exactly when
the mantissa is even. -/
structure Rounding where
  low : Rat
  high : Rat
  closed : Bool

/-- Below a power of two the doubles stand twice as close. -/
def rounding (mantissa : Nat) (exponent : Int) : Rounding :=
  let unit : Rat := 2 ^ (exponent - 2)
  let below : Rat :=
    if mantissa = Binary64.hiddenBit ∧ Binary64.leastExponent < exponent then 1 else 2
  ⟨(4 * mantissa - below) * unit, (4 * mantissa + 2) * unit, mantissa % 2 == 0⟩

def Rounding.contains (r : Rounding) (x : Rat) : Bool :=
  if r.closed then r.low ≤ x && x ≤ r.high else r.low < x && x < r.high

/-- Which of two equally near decimals is taken. -/
inductive Tie where
  | up
  | toEven
  deriving Repr, DecidableEq

/-- The nearer of two neighbouring decimals. -/
def nearer (tie : Tie) (x : Rat) (lower upper : Decimal) : Decimal :=
  let below := x - lower.toRat
  let above := upper.toRat - x
  if below < above then lower
  else if above < below then upper
  else if tie = .toEven ∧ lower.digits % 2 = 0 then lower
  else upper

/-- Of the two neighbours of `x` on the grid of multiples of `10 ^ exponent`, the nearer one that
lies in the interval. -/
def onGrid (tie : Tie) (r : Rounding) (x : Rat) (exponent : Int) : Option Decimal :=
  let below := (x / 10 ^ exponent).floor.toNat
  let lower : Decimal := ⟨below, exponent⟩
  let upper : Decimal := ⟨below + 1, exponent⟩
  match r.contains lower.toRat, r.contains upper.toRat with
  | true, true => some (nearer tie x lower upper)
  | true, false => some lower
  | false, true => some upper
  | false, false => none

/-- Tries ever finer grids. -/
def search (tie : Tie) (r : Rounding) (x : Rat) : Nat → Int → Decimal
  | 0, exponent => ⟨(x / 10 ^ exponent).floor.toNat, exponent⟩
  | n + 1, exponent =>
      match onGrid tie r x exponent with
      | some d => d
      | none => search tie r x n (exponent - 1)

/-- The shortest decimal that reads back as `mantissa · 2 ^ exponent`. Seventeen digits always
suffice. -/
def shortest (tie : Tie) (mantissa : Nat) (exponent : Int) : Decimal :=
  if mantissa = 0 then ⟨0, 0⟩
  else
    let x : Rat := mantissa * 2 ^ exponent
    trim 20 (search tie (rounding mantissa exponent) x 17 (log10 x))

end TreeScript.Decimal
