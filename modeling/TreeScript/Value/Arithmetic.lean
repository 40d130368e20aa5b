import TreeScript.Value.Numeral

set_option autoImplicit false

/- Arithmetic on numbers. Two integers give an integer wherever a word holds the exact result, and
a float otherwise. -/
namespace TreeScript.Number

/-- The exact integer if a word holds it, else the float. -/
def exact (result : Int) (approximate : Float) : Number :=
  match fitWord result with
  | some n => .integer n
  | none => .float approximate

def add : Number → Number → Number
  | .integer m, .integer n => exact (m.toInt + n.toInt) (wordToFloat m + wordToFloat n)
  | a, b => .float (a.toFloat + b.toFloat)

def subtract : Number → Number → Number
  | .integer m, .integer n => exact (m.toInt - n.toInt) (wordToFloat m - wordToFloat n)
  | a, b => .float (a.toFloat - b.toFloat)

def multiply : Number → Number → Number
  | .integer m, .integer n => exact (m.toInt * n.toInt) (wordToFloat m * wordToFloat n)
  | a, b => .float (a.toFloat * b.toFloat)

/-- The quotient; `none` for a divisor of zero. Integers stay integers when the division leaves
no remainder. -/
def divide : Number → Number → Option Number
  | a, b =>
      if b.isZero then none
      else
        match a, b with
        | .integer m, .integer n =>
            if m.toInt.tmod n.toInt = 0 then
              some (exact (m.toInt.tdiv n.toInt) (wordToFloat m / wordToFloat n))
            else some (.float (wordToFloat m / wordToFloat n))
        | a, b => some (.float (a.toFloat / b.toFloat))

end TreeScript.Number

namespace TreeScript

/-- The remainder with the sign of the dividend. -/
def remainder (m n : Int64) : Int64 := .ofInt (m.toInt.tmod n.toInt)

/-- The low 64 bits of the shifted integer. -/
def shiftLeft (m : Int64) (amount : Nat) : Int64 :=
  if 64 ≤ amount then 0 else .ofInt (m.toInt * (1 <<< amount : Nat))

/-- The shifted integer, its sign kept. -/
def shiftRight (m : Int64) (amount : Nat) : Int64 :=
  if 64 ≤ amount then (if m < 0 then -1 else 0) else .ofInt (m.toInt >>> amount)

/-- The value after an increment. The integer that no word follows gives a float. -/
def Value.increment : Value → Value
  | .null => .integer 1
  | .integer n =>
      match fitWord (n.toInt + 1) with
      | some next => .integer next
      | none => .float (wordToFloat n + 1.0)
  | .float x => .float (x + 1.0)
  | .string s =>
      if s == "" then .string "1"
      else
        match numericText s with
        | some number => (Number.add (.integer 1) number).toValue
        | none => .string (successorText s)
  | other => other

/-- The value after a decrement; null and texts that are no numbers stay as they are. -/
def Value.decrement : Value → Value
  | .integer n =>
      match fitWord (n.toInt - 1) with
      | some previous => .integer previous
      | none => .float (wordToFloat n - 1.0)
  | .float x => .float (x - 1.0)
  | .string s =>
      if s == "" then .integer (-1)
      else
        match numericText s with
        | some number => (Number.subtract number (.integer 1)).toValue
        | none => .string s
  | other => other

end TreeScript
