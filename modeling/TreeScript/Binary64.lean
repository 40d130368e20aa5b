set_option autoImplicit false

/- Doubles as exact numbers: `Binary64.ofFloat` takes a double apart, `nearest` finds the double
closest to a rational. -/
namespace TreeScript

/-- A double is not a number, infinite, or `± mantissa · 2 ^ exponent`. -/
inductive Binary64 where
  | nan
  | infinite (negative : Bool)
  | finite (negative : Bool) (mantissa : Nat) (exponent : Int)
  deriving Repr, DecidableEq

namespace Binary64

/-- The exponent of subnormal doubles. -/
def leastExponent : Int := -1074

/-- The leading bit of a normal mantissa, which is not stored. -/
def hiddenBit : Nat := 4503599627370496

def ofFloat (x : Float) : Binary64 :=
  let bits := x.toBits.toNat
  let negative := bits / (2048 * hiddenBit) == 1
  let scale : Nat := bits / hiddenBit % 2048
  let fraction := bits % hiddenBit
  if scale = 2047 then
    if fraction = 0 then .infinite negative else .nan
  else if scale = 0 then .finite negative fraction leastExponent
  else .finite negative (fraction + hiddenBit) ((scale : Int) - 1075)

/-- The whole part, toward zero; 0 for what is not finite. -/
def truncate : Binary64 → Int
  | .nan | .infinite _ => 0
  | .finite negative mantissa exponent =>
      let size : Nat :=
        if 0 ≤ exponent then mantissa <<< exponent.toNat else mantissa >>> exponent.natAbs
      if negative then -size else size

/-- The quotient rounded to a natural number, a half to the even one. -/
def roundHalfEven (x : Rat) : Nat :=
  let low := x.floor.toNat
  let rest := x - low
  if rest < 1 / 2 then low
  else if rest = 1 / 2 then (if low % 2 = 0 then low else low + 1)
  else low + 1

/-- The largest `k` with `2 ^ k ≤ x`, for positive `x`. -/
def log2 (x : Rat) : Int :=
  let k : Int := (Nat.log2 x.num.natAbs : Int) - Nat.log2 x.den
  if x < 2 ^ k then k - 1 else k

/-- The double nearest to a non-negative rational, a half to the even mantissa; too large a
rational gives infinity. -/
def nearest (x : Rat) : Float :=
  if x ≤ 0 then Float.ofBits 0
  else
    let exponent := max (log2 x - 52) leastExponent
    let mantissa := roundHalfEven (x / 2 ^ exponent)
    let bits : Nat :=
      if mantissa < hiddenBit then mantissa
      else (exponent + 1075).toNat * hiddenBit + (mantissa - hiddenBit)
    Float.ofBits (UInt64.ofNat (min bits (2047 * hiddenBit)))

end Binary64
end TreeScript
