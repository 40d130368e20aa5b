import TreeScript.Store.Basic
import TreeScript.Value.Numeral

set_option autoImplicit false

/- Values as booleans, texts, numbers and keys. -/
namespace TreeScript

/-- The whole part of a float, held to the range of 64 bits; 0 for what is not finite. -/
def floatToInteger (x : Float) : Int64 := Int64.ofIntClamp (Binary64.ofFloat x).truncate

/-- The integer key of a float; an infinity is at the end of the range. -/
def floatToKey (x : Float) : Int64 :=
  match Binary64.ofFloat x with
  | .infinite negative => if negative then Int64.minValue else Int64.maxValue
  | b => Int64.ofIntClamp b.truncate

namespace Store

def toBoolean (st : Store) : Value → Bool
  | .null => false
  | .boolean b => b
  | .integer n => n != 0
  | .float x => x != 0.0
  | .string s => !(s == "" || s == "0")
  | .array a => !(st.array a).elements.isEmpty
  | .object _ => true

def toText (st : Store) : Value → String
  | .null => ""
  | .boolean b => if b then "1" else ""
  | .integer n => toString n.toInt
  | .float x => floatText x
  | .string s => s
  | .array _ => "Array"
  | .object o => st.className o

def toInteger (st : Store) : Value → Int64
  | .null => 0
  | .boolean b => if b then 1 else 0
  | .integer n => n
  | .float x => floatToInteger x
  | .string s =>
      match leadingNumber s with
      | some (.integer n, _) => n
      | some (.float x, _) => floatToInteger x
      | none => 0
  | .array a => if (st.array a).elements.isEmpty then 0 else 1
  | .object _ => 1

def toFloat (st : Store) : Value → Float
  | .float x => x
  | .string s =>
      match leadingNumber s with
      | some (number, _) => number.toFloat
      | none => 0.0
  | other => wordToFloat (st.toInteger other)

/-- The number a value counts as in arithmetic. -/
def toNumber (st : Store) : Value → Number
  | .integer n => .integer n
  | .float x => .float x
  | .string s =>
      match leadingNumber s with
      | some (number, _) => number
      | none => .integer 0
  | other => .integer (st.toInteger other)

end Store

/-- The key a value stands for; arrays and objects are none. -/
def Key.ofValue : Value → Option Key
  | .null => some (.string "")
  | .boolean b => some (.integer (if b then 1 else 0))
  | .integer n => some (.integer n)
  | .float x => some (.integer (floatToKey x))
  | .string s => some (.ofText s)
  | .array _ | .object _ => none

end TreeScript
