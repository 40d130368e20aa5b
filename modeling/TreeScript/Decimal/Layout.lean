import TreeScript.Decimal.Shortest

set_option autoImplicit false

/- Written forms of doubles: shortest digits in a layout, or a fixed number of places. -/
namespace TreeScript.Decimal

def zeros (n : Nat) : List Char := List.replicate n '0'

/-- Decides between equally near digits, and between positional and exponent notation. -/
structure Layout where
  tie : Tie
  /-- The least power of ten of a first digit written positionally. -/
  leastPower : Int
  /-- The greatest power of ten of a first digit written positionally. -/
  greatestPower : Int
  /-- What follows the mark `e` of an exponent that is not negative. -/
  plus : String
  /-- How a double that is not finite is written: not a number, infinity, minus infinity. -/
  special : String × String × String

/-- Positional digits, with at least one digit after the point. -/
def positional (d : Decimal) : List Char :=
  let ds := Nat.toDigits 10 d.digits
  if 0 ≤ d.exponent then ds ++ zeros d.exponent.toNat ++ ['.', '0']
  else
    let places := d.exponent.natAbs
    if places < ds.length then ds.take (ds.length - places) ++ '.' :: ds.drop (ds.length - places)
    else '0' :: '.' :: zeros (places - ds.length) ++ ds

/-- One digit before the point, and a point only before further digits. -/
def scientific (plus : String) (d : Decimal) : List Char :=
  let ds := Nat.toDigits 10 d.digits
  let power := d.exponent + ds.length - 1
  let fraction := match ds.drop 1 with
    | [] => []
    | rest => '.' :: rest
  ds.take 1 ++ fraction ++
    'e' :: (if power < 0 then '-' :: Nat.toDigits 10 power.natAbs
      else plus.toList ++ Nat.toDigits 10 power.toNat)

/-- The shortest text of a double in the given layout. -/
def Layout.write (l : Layout) (x : Float) : String :=
  match Binary64.ofFloat x with
  | .nan => l.special.1
  | .infinite negative => if negative then l.special.2.2 else l.special.2.1
  | .finite negative mantissa exponent =>
      let d := shortest l.tie mantissa exponent
      let power := d.exponent + length d.digits - 1
      let body :=
        if mantissa = 0 ∨ (l.leastPower ≤ power ∧ power ≤ l.greatestPower) then positional d
        else scientific l.plus d
      String.ofList (if negative then '-' :: body else body)

/-- A magnitude rounded to `places` digits after the point, a half to the even digit. -/
def fixed (places : Nat) (x : Rat) : List Char :=
  let ds := Nat.toDigits 10 (Binary64.roundHalfEven (x * 10 ^ places))
  let ds := zeros (places + 1 - ds.length) ++ ds
  if places = 0 then ds
  else ds.take (ds.length - places) ++ '.' :: ds.drop (ds.length - places)

end TreeScript.Decimal
