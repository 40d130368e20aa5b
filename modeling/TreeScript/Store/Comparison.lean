import TreeScript.Store.Coercion

set_option autoImplicit false

/- Loose equality, strict identity and loose order. Arrays and objects are compared through the
store; a comparison that would never end is `none`. -/
namespace TreeScript

def compareFloats (x y : Float) : Option Ordering :=
  if x < y then some .lt else if x > y then some .gt else if x == y then some .eq else none

def Number.compare : Number → Number → Option Ordering
  | .integer m, .integer n => some (Ord.compare m.toInt n.toInt)
  | a, b => compareFloats a.toFloat b.toFloat

/-- Two texts that are both numeric are compared as numbers, all others by their characters. -/
def compareTexts (s t : String) : Option Ordering :=
  match numericText s, numericText t with
  | some m, some n => m.compare n
  | _, _ => some (Ord.compare s t)

/-- A number against a text: as numbers when the text is numeric, else as texts. -/
def compareNumberText (number : Number) (shown s : String) : Option Ordering :=
  match numericText s with
  | some n => number.compare n
  | none => some (Ord.compare shown s)

def compareTextNumber (s : String) (number : Number) (shown : String) : Option Ordering :=
  match numericText s with
  | some n => n.compare number
  | none => some (Ord.compare s shown)

/-- Whether every item passes a test that may not end. -/
def allEnding {α : Type} (test : α → Option Bool) : List α → Option Bool
  | [] => some true
  | a :: rest =>
      match test a with
      | some true => allEnding test rest
      | other => other

namespace Store

/-- The order of two values that are not both arrays or both objects. -/
def compareUnlike (st : Store) : Value → Value → Option Ordering
  | .string s, .string t => compareTexts s t
  | .null, .string s => some (Ord.compare "" s)
  | .string s, .null => some (Ord.compare s "")
  | .null, v => some (Ord.compare false (st.toBoolean v))
  | v, .null => some (Ord.compare (st.toBoolean v) false)
  | .boolean b, v => some (Ord.compare b (st.toBoolean v))
  | v, .boolean b => some (Ord.compare (st.toBoolean v) b)
  | .integer m, .integer n => Number.compare (.integer m) (.integer n)
  | .integer m, .float y => Number.compare (.integer m) (.float y)
  | .float x, .integer n => Number.compare (.float x) (.integer n)
  | .float x, .float y => Number.compare (.float x) (.float y)
  | .integer m, .string s => compareNumberText (.integer m) (toString m.toInt) s
  | .float x, .string s => compareNumberText (.float x) (floatText x) s
  | .string s, .integer n => compareTextNumber s (.integer n) (toString n.toInt)
  | .string s, .float y => compareTextNumber s (.float y) (floatText y)
  | _, _ => none

/-- Loose equality within the given depth. -/
def looselyEqualWithin (st : Store) : Nat → Value → Value → Option Bool
  | 0, _, _ => none
  | depth + 1, v, w =>
      match v, w with
      | .null, .null => some true
      | .boolean a, _ => some (a == st.toBoolean w)
      | _, .boolean b => some (st.toBoolean v == b)
      | .null, .string s => some (s == "")
      | .string s, .null => some (s == "")
      | .null, _ => some (!st.toBoolean w)
      | _, .null => some (!st.toBoolean v)
      | .array a, .array b =>
          if (st.array a).size ≠ (st.array b).size then some false
          else
            allEnding
              (fun (key, s) =>
                match st.element? b key with
                | some other => looselyEqualWithin st depth (st.read s) other
                | none => some false)
              (st.array a).elements
      | .object a, .object b =>
          if a = b then some true
          else if st.className a ≠ st.className b ∨
              (st.object a).properties.length ≠ (st.object b).properties.length then some false
          else
            allEnding
              (fun (name, s) =>
                match st.property? b name with
                | some other => looselyEqualWithin st depth (st.read s) other
                | none => some false)
              (st.object a).properties
      | _, _ => some (st.compareUnlike v w == some .eq)

/-- Strict identity within the given depth. -/
def identicalWithin (st : Store) : Nat → Value → Value → Option Bool
  | 0, _, _ => none
  | depth + 1, v, w =>
      match v, w with
      | .null, .null => some true
      | .boolean a, .boolean b => some (a == b)
      | .integer m, .integer n => some (m == n)
      | .float x, .float y => some (x == y)
      | .string s, .string t => some (s == t)
      | .array a, .array b =>
          if a = b then some true
          else if (st.array a).size ≠ (st.array b).size then some false
          else
            allEnding
              (fun ((key, s), (key', s')) =>
                if key = key' then identicalWithin st depth (st.read s) (st.read s')
                else some false)
              ((st.array a).elements.zip (st.array b).elements)
      | .object a, .object b => some (decide (a = b))
      | _, _ => some false

/-- No comparison that ends nests deeper than there are pairs of containers. -/
def comparisonDepth (st : Store) : Nat :=
  let containers := st.arrays.size + st.objects.size
  (containers + 1) * (containers + 1) + 1

def looselyEqual (st : Store) (v w : Value) : Option Bool :=
  st.looselyEqualWithin st.comparisonDepth v w

def identical (st : Store) (v w : Value) : Option Bool :=
  st.identicalWithin st.comparisonDepth v w

/-- The order of two values: `some none` when they cannot be ordered. -/
def compare (st : Store) (v w : Value) : Option (Option Ordering) :=
  let equalOrNone := (st.looselyEqual v w).map fun equal => if equal then some .eq else none
  match v, w with
  | .array a, .array b =>
      if (st.array a).size ≠ (st.array b).size then
        some (some (Ord.compare (st.array a).size (st.array b).size))
      else equalOrNone
  | .object _, .object _ => equalOrNone
  | _, _ => some (st.compareUnlike v w)

end Store
end TreeScript
