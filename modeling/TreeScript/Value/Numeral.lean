import TreeScript.Decimal.Layout
import TreeScript.Value.Basic

set_option autoImplicit false

/- Numbers in texts: the numeral at the front of a text, the text of a float, and the successor of
a text that is no number. -/
namespace TreeScript

/-- The double nearest to a word. -/
def wordToFloat (n : Int64) : Float := .ofInt n.toInt

inductive Number where
  | integer (n : Int64)
  | float (x : Float)

namespace Number

def toFloat : Number → Float
  | .integer n => wordToFloat n
  | .float x => x

def toValue : Number → Value
  | .integer n => .integer n
  | .float x => .float x

def isZero : Number → Bool
  | .integer n => n == 0
  | .float x => x == 0.0

end Number

/-- The parts of a numeral: an optional sign, digits, a fraction after a point, an exponent. -/
structure Numeral where
  negative : Bool
  whole : List Char
  fraction : Option (List Char)
  exponent : Option (Bool × List Char)

namespace Numeral

def takeDigits (cs : List Char) : List Char × List Char :=
  (cs.takeWhile Char.isDigit, cs.dropWhile Char.isDigit)

def takeSign : List Char → Bool × List Char
  | '-' :: rest => (true, rest)
  | '+' :: rest => (false, rest)
  | cs => (false, cs)

/-- A point belongs to the numeral when a digit stands on either side of it. -/
def takeFraction (whole cs : List Char) : Option (List Char) × List Char :=
  match cs with
  | '.' :: rest =>
      let (digits, rest') := takeDigits rest
      if whole.isEmpty && digits.isEmpty then (none, cs) else (some digits, rest')
  | _ => (none, cs)

/-- An exponent mark belongs to the numeral when digits follow it, after an optional sign. -/
def takeExponent (cs : List Char) : Option (Bool × List Char) × List Char :=
  match cs with
  | c :: rest =>
      if c = 'e' ∨ c = 'E' then
        let (negative, rest') := takeSign rest
        match takeDigits rest' with
        | ([], _) => (none, cs)
        | (digits, rest'') => (some (negative, digits), rest'')
      else (none, cs)
  | [] => (none, cs)

/-- The longest numeral at the front of a text without leading blanks. -/
def read (cs : List Char) : Option (Numeral × List Char) :=
  let (negative, cs) := takeSign cs
  let (whole, cs) := takeDigits cs
  let (fraction, cs) := takeFraction whole cs
  if whole.isEmpty && fraction.isNone then none
  else
    let (exponent, cs) := takeExponent cs
    some (⟨negative, whole, fraction, exponent⟩, cs)

def exponentValue : Option (Bool × List Char) → Int
  | none => 0
  | some (negative, digits) =>
      if negative then -(digitsToNat digits : Int) else digitsToNat digits

/-- The double nearest to the numeral. -/
def toFloat (t : Numeral) : Float :=
  let digits := t.fraction.getD []
  let x := Decimal.toFloat
    ⟨digitsToNat (t.whole ++ digits), exponentValue t.exponent - digits.length⟩
  if t.negative then -x else x

/-- An integer when the numeral has neither point nor exponent and 64 bits hold it. -/
def toNumber (t : Numeral) : Number :=
  match t.fraction, t.exponent with
  | none, none =>
      let size : Int := digitsToNat t.whole
      match fitWord (if t.negative then -size else size) with
      | some n => .integer n
      | none => .float t.toFloat
  | _, _ => .float t.toFloat

end Numeral

/-- The number at the front of a text, and whether only blanks stand around it. -/
def leadingNumber (text : String) : Option (Number × Bool) :=
  match Numeral.read (text.toList.dropWhile Text.isBlank) with
  | some (t, rest) => some (t.toNumber, rest.all Text.isBlank)
  | none => none

/-- The number a whole text denotes. -/
def numericText (text : String) : Option Number :=
  match leadingNumber text with
  | some (number, true) => some number
  | _ => none

/-- The significant digits of a float's text. -/
def floatPrecision : Int := 14

/-- Drops zeros at the end of a fraction, and a point left without one. -/
def trimFraction (cs : List Char) : List Char :=
  if cs.contains '.' then
    ((cs.reverse.dropWhile (· == '0')).dropWhile (· == '.')).reverse
  else cs

/-- The text of a float: whole numbers below `1e15` as integers, all else to fourteen significant
digits and at most twenty places. -/
def floatText (x : Float) : String :=
  match Binary64.ofFloat x with
  | .nan => "NAN"
  | .infinite negative => if negative then "-INF" else "INF"
  | .finite negative mantissa exponent =>
      let size : Rat := mantissa * 2 ^ exponent
      if size.den = 1 ∧ size < 1000000000000000 then toString (Binary64.ofFloat x).truncate
      else
        let power := (Binary64.ofFloat x.abs.log10.floor).truncate
        let places := (max 0 (min 20 (floatPrecision - 1 - power))).toNat
        let text := trimFraction (Decimal.fixed places size)
        String.ofList (if negative then '-' :: text else text)

/-- Steps a text from its last character, given in reverse: letters and digits count within
their own class and carry to the left. Reports a carry out of the first character. -/
def stepReversed : List Char → List Char × Bool
  | [] => ([], true)
  | c :: rest =>
      let carry (first : Char) :=
        let (rest, overflow) := stepReversed rest
        (first :: rest, overflow)
      if c = 'z' then carry 'a'
      else if c = 'Z' then carry 'A'
      else if c = '9' then carry '0'
      else if c.isAlphanum then (Char.ofNat (c.toNat + 1) :: rest, false)
      else (c :: rest, false)

/-- The alphanumeric successor of a text; a carry out of the front adds a character of the class
that stands there. -/
def successorText (text : String) : String :=
  match stepReversed text.toList.reverse with
  | (reversed, overflow) =>
      let cs := reversed.reverse
      match overflow, cs with
      | true, '0' :: _ => String.ofList ('1' :: cs)
      | true, 'a' :: _ => String.ofList ('a' :: cs)
      | true, 'A' :: _ => String.ofList ('A' :: cs)
      | _, _ => String.ofList cs

end TreeScript
