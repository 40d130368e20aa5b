import TreeScript.Binary64

set_option autoImplicit false

/- Decimal numerals: digits and a power of ten. -/
namespace TreeScript

/-- The number `digits · 10 ^ exponent`. -/
structure Decimal where
  digits : Nat
  exponent : Int
  deriving Repr, DecidableEq

namespace Decimal

def toRat (d : Decimal) : Rat := d.digits * 10 ^ d.exponent

/-- Drops the zeros at the end of the digits, at most `n` of them. -/
def trim : Nat → Decimal → Decimal
  | 0, d => d
  | n + 1, d =>
      if d.digits ≠ 0 ∧ d.digits % 10 = 0 then trim n ⟨d.digits / 10, d.exponent + 1⟩ else d

/-- The number of decimal digits. -/
def length (n : Nat) : Nat := (Nat.toDigits 10 n).length

/-- The largest `k` with `10 ^ k ≤ x`, for positive `x`. -/
def log10 (x : Rat) : Int :=
  let k : Int := (length x.num.natAbs : Int) - length x.den
  if x < 10 ^ k then k - 1 else k

/-- The nearest double. Magnitudes far outside the range of doubles are told by their size
alone, before any power of ten is computed. -/
def toFloat (d : Decimal) : Float :=
  if d.digits = 0 then Float.ofBits 0
  else
    let top := (length d.digits : Int) + d.exponent
    if top > 400 then Float.ofBits 0x7FF0000000000000
    else if top < -400 then Float.ofBits 0
    else Binary64.nearest d.toRat

end Decimal
end TreeScript
