import TreeScript.Text.Blank

set_option autoImplicit false

/- Script values and array keys. Arrays and objects are handles into a store. -/
namespace TreeScript

/-- Names a slot of a store. -/
structure SlotId where
  index : Nat
  deriving Repr, DecidableEq

structure ArrayId where
  index : Nat
  deriving Repr, DecidableEq

structure ObjectId where
  index : Nat
  deriving Repr, DecidableEq

structure ClassId where
  index : Nat
  deriving Repr, DecidableEq

inductive Value where
  | null
  | boolean (b : Bool)
  | integer (n : Int64)
  | float (x : Float)
  | string (s : String)
  | array (a : ArrayId)
  | object (o : ObjectId)

namespace Value

instance : Inhabited Value := ⟨.null⟩

def isNull : Value → Bool
  | .null => true
  | _ => false

def isCompound : Value → Bool
  | .array _ | .object _ => true
  | _ => false

/-- The name of the type in results and messages. -/
def typeTag : Value → String
  | .null => "null"
  | .boolean _ => "boolean"
  | .integer _ => "int"
  | .float _ => "float"
  | .string _ => "string"
  | .array _ => "array"
  | .object _ => "object"

end Value

/-- A key of an array. A text that is the decimal form of a signed 64-bit integer is that
integer as a key. -/
inductive Key where
  | integer (n : Int64)
  | string (s : String)
  deriving Repr, DecidableEq

/-- The word that holds an integer, if one does. -/
def fitWord (n : Int) : Option Int64 :=
  if -9223372036854775808 ≤ n ∧ n < 9223372036854775808 then some (.ofInt n) else none

/-- A run of decimal digits as a number. -/
def digitsToNat (digits : List Char) : Nat :=
  digits.foldl (fun n c => n * 10 + (c.toNat - '0'.toNat)) 0

/-- The integer of digits after an optional minus sign. -/
def decimalInteger : List Char → Option Int
  | '-' :: digits =>
      if !digits.isEmpty && digits.all Char.isDigit then some (-(digitsToNat digits : Int)) else none
  | digits =>
      if !digits.isEmpty && digits.all Char.isDigit then some (digitsToNat digits : Int) else none

namespace Key

/-- Integers are keys only in their canonical form: no sign plus, no leading zero. -/
def ofText (text : String) : Key :=
  match (decimalInteger text.toList).bind fitWord with
  | some n => if toString n.toInt == text then .integer n else .string text
  | none => .string text

def text : Key → String
  | .integer n => toString n.toInt
  | .string s => s

def toValue : Key → Value
  | .integer n => .integer n
  | .string s => .string s

end Key
end TreeScript
