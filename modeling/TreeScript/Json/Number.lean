import TreeScript.Decimal.Basic
import TreeScript.Json.Basic

set_option autoImplicit false

/- Reading JSON numbers. A whole number that fits a 64-bit word is exact. Any other number is
gathered into one 64-bit significand, which is then scaled by a power of ten in double
arithmetic, so its last bit can differ from the nearest double. -/
namespace TreeScript.JsonNumber

/-- The parts of a number text. -/
structure Numeral where
  minus : Bool
  whole : List Char
  fraction : Option (List Char)
  exponent : Option (Bool × List Char)

def digitValue (c : Char) : Nat := c.toNat - '0'.toNat

/-- Appends digits to a significand as long as the result fits 64 bits; gives back those that are
left over. -/
def absorb (significand : Nat) : List Char → Nat × List Char
  | [] => (significand, [])
  | c :: rest =>
      let next := significand * 10 + digitValue c
      if next < 18446744073709551616 then absorb next rest else (significand, c :: rest)

def powerOfTen (n : Nat) : Float := Decimal.toFloat ⟨1, n⟩

/-- Scales by a power of ten, in steps that each stay within the doubles; `none` when the result
is too large. Four steps bring every significand to zero. -/
def scale : Nat → Float → Int → Option Float
  | 0, x, _ => some x
  | n + 1, x, exponent =>
      if exponent.natAbs ≤ 308 then
        if 0 ≤ exponent then
          let y := x * powerOfTen exponent.toNat
          if y.isInf then none else some y
        else some (x / powerOfTen exponent.natAbs)
      else if x == 0.0 then some x
      else if 0 ≤ exponent then none
      else scale n (x / powerOfTen 308) (exponent + 308)

def signed (minus : Bool) (x : Float) : Float := if minus then -x else x

def exponentValue : Option (Bool × List Char) → Int
  | none => 0
  | some (minus, digits) =>
      let size : Int := digits.foldl (fun n c => n * 10 + digitValue c) 0
      if minus then -size else size

def Numeral.toNumber (t : Numeral) : Option JsonNumber :=
  let (whole, surplus) := absorb 0 t.whole
  match t.fraction, t.exponent, surplus with
  | none, none, [] =>
      if !t.minus then some (.natural (UInt64.ofNat whole))
      else if 0 < whole ∧ whole ≤ 9223372036854775808 then some (.negative (Int64.ofInt (-whole)))
      else some (.real (-(UInt64.ofNat whole).toFloat))
  | fraction, exponent, surplus =>
      let digits := fraction.getD []
      let (significand, ignored) := absorb whole digits
      let power : Int :=
        surplus.length - (digits.length - ignored.length) + exponentValue exponent
      (scale 4 (UInt64.ofNat significand).toFloat power).map fun x =>
        .real (signed t.minus x)

def takeDigits (cs : List Char) : List Char × List Char :=
  (cs.takeWhile Char.isDigit, cs.dropWhile Char.isDigit)

/-- Whole part: a single zero, or digits that do not start with one. -/
def readWhole : List Char → Option (List Char × List Char)
  | '0' :: rest => some (['0'], rest)
  | cs =>
      match takeDigits cs with
      | ([], _) => none
      | parts => some parts

/-- Fraction: a point and at least one digit. -/
def readFraction : List Char → Option (Option (List Char) × List Char)
  | '.' :: cs =>
      match takeDigits cs with
      | ([], _) => none
      | (digits, rest) => some (some digits, rest)
  | cs => some (none, cs)

/-- Exponent: a mark, a sign if any, and at least one digit. -/
def readExponent (cs : List Char) : Option (Option (Bool × List Char) × List Char) :=
  match cs with
  | c :: cs' =>
      if c = 'e' ∨ c = 'E' then
        let (minus, cs') := match cs' with
          | '-' :: more => (true, more)
          | '+' :: more => (false, more)
          | _ => (false, cs')
        match takeDigits cs' with
        | ([], _) => none
        | (digits, rest) => some (some (minus, digits), rest)
      else some (none, cs)
  | [] => some (none, cs)

def readNumeral (cs : List Char) : Option (Numeral × List Char) := do
  let (minus, cs) := match cs with
    | '-' :: more => (true, more)
    | _ => (false, cs)
  let (whole, cs) ← readWhole cs
  let (fraction, cs) ← readFraction cs
  let (exponent, cs) ← readExponent cs
  some (⟨minus, whole, fraction, exponent⟩, cs)

/-- The number at the front of a text, and what follows it. -/
def read (cs : List Char) : Option (JsonNumber × List Char) := do
  let (numeral, rest) ← readNumeral cs
  let number ← numeral.toNumber
  some (number, rest)

end TreeScript.JsonNumber
