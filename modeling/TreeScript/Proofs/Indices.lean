import Mathlib.Data.Rat.Floor
import TreeScript.Proofs.Arrays
import TreeScript.Proofs.Run

set_option autoImplicit false

/- Booleans, integers and floats as indices. The key of such a value is its integer, and so the key
of what `intval` makes of it, except where the value is an infinity: its key is at the end of the
range, and its integer is 0. -/
namespace TreeScript

/-- The least and the greatest word are the ends at which an integer is held. -/
def heldToWord (n : Int) : Int := max (-2 ^ 63) (min n (2 ^ 63 - 1))

theorem toInt_ofIntClamp_eq (n : Int) : (Int64.ofIntClamp n).toInt = heldToWord n := by
  have least : Int64.minValue.toInt = -2 ^ 63 := by decide
  have greatest : Int64.maxValue.toInt = 2 ^ 63 - 1 := by decide
  unfold heldToWord
  by_cases low : -2 ^ 63 ≤ n
  · by_cases high : n ≤ 2 ^ 63 - 1
    · rw [Int64.toInt_ofIntClamp (by omega) (by omega)]
      omega
    · rw [Int64.ofIntClamp, dif_pos (by omega), dif_neg (by omega), greatest]
      omega
  · rw [Int64.ofIntClamp, dif_neg (by omega), least]
    omega

namespace Binary64

def isInfinite : Binary64 → Bool
  | .infinite _ => true
  | .nan | .finite .. => false

/-- The whole part is that of the exact number, toward zero. -/
theorem truncate_finite (negative : Bool) (mantissa : Nat) (exponent : Int) :
    (finite negative mantissa exponent).truncate =
      (if negative then -1 else 1) * ⌊(mantissa : ℚ) * 2 ^ exponent⌋ := by
  have size : ((if 0 ≤ exponent then mantissa <<< exponent.toNat
      else mantissa >>> exponent.natAbs : Nat) : Int) = ⌊(mantissa : ℚ) * 2 ^ exponent⌋ := by
    by_cases up : 0 ≤ exponent
    · obtain ⟨places, rfl⟩ := Int.eq_ofNat_of_zero_le up
      have whole : (mantissa : ℚ) * 2 ^ (places : Int) = ((mantissa * 2 ^ places : Nat) : ℚ) := by
        push_cast
        rw [zpow_natCast]
      rw [if_pos up, whole, Int.floor_natCast, Nat.shiftLeft_eq, Int.toNat_natCast]
    · obtain ⟨places, isNegative⟩ : ∃ places : Nat, exponent = -places := ⟨exponent.natAbs, by omega⟩
      have quotient : (mantissa : ℚ) * 2 ^ exponent = (mantissa : ℚ) / (2 ^ places : Nat) := by
        rw [isNegative, zpow_neg, zpow_natCast, div_eq_mul_inv]
        push_cast
        rfl
      have amount : exponent.natAbs = places := by omega
      rw [if_neg up, quotient, Rat.floor_natCast_div_natCast, amount, Nat.shiftRight_eq_div_pow]
      norm_cast
  unfold truncate
  dsimp only
  rw [size]
  cases negative <;> simp

end Binary64

/-! The two conversions of a float -/

theorem floatToKey_of_infinite {x : Float} {negative : Bool}
    (infinite : Binary64.ofFloat x = .infinite negative) :
    floatToKey x = if negative then Int64.minValue else Int64.maxValue := by
  rw [floatToKey, infinite]

theorem floatToKey_of_finite {x : Float} {negative : Bool} {mantissa : Nat} {exponent : Int}
    (shape : Binary64.ofFloat x = .finite negative mantissa exponent) :
    floatToKey x = Int64.ofIntClamp (Binary64.finite negative mantissa exponent).truncate := by
  rw [floatToKey, shape]

theorem floatToInteger_of_infinite {x : Float} {negative : Bool}
    (infinite : Binary64.ofFloat x = .infinite negative) : floatToInteger x = 0 := by
  rw [floatToInteger, infinite, Binary64.truncate]
  decide

/-- The key of a float and its integer agree but for the infinities. -/
theorem floatToKey_eq_iff (x : Float) :
    floatToKey x = floatToInteger x ↔ (Binary64.ofFloat x).isInfinite = false := by
  cases shape : Binary64.ofFloat x with
  | infinite negative =>
      rw [floatToKey_of_infinite shape, floatToInteger_of_infinite shape]
      cases negative <;> decide
  | nan => simp [floatToKey, floatToInteger, shape, Binary64.isInfinite]
  | finite negative mantissa exponent =>
      simp [floatToKey, floatToInteger, shape, Binary64.isInfinite]

namespace Value

/-- A boolean, an integer or a float. -/
def isNumeric : Value → Bool
  | .boolean _ | .integer _ | .float _ => true
  | .null | .string _ | .array _ | .object _ => false

def isInfinite : Value → Bool
  | .float x => (Binary64.ofFloat x).isInfinite
  | _ => false

end Value

theorem key_of_numeric (st : Store) {v : Value} (numeric : v.isNumeric = true) :
    ∃ key, Key.ofValue v = some (.integer key) ∧ (key = st.toInteger v ↔ v.isInfinite = false) := by
  cases v with
  | boolean b =>
      refine ⟨if b then 1 else 0, rfl, ?_⟩
      simp [Store.toInteger, Value.isInfinite]
  | integer n =>
      refine ⟨n, rfl, ?_⟩
      simp [Store.toInteger, Value.isInfinite]
  | float x => exact ⟨floatToKey x, rfl, floatToKey_eq_iff x⟩
  | null | string s | array a | object o => cases numeric

theorem run_intval (held : List Handle) (m : Machine) (v : Value) :
    (Builtin.call held .intval none [v]).run m = .ok (.integer (m.store.toInteger v)) m := rfl

/-- A boolean, an integer or a float that is not infinite stands for its integer as a key: `intval`
gives that integer, and whatever index evaluates to the value finds the element under it. Of a
float it is the whole part, held to the range of words. For an infinity the key is an end of the
range, and the integer 0. -/
theorem numeric_keys_are_integers (m : Machine) {v : Value} (numeric : v.isNumeric = true) :
    ∃ key n : Int64,
      Key.ofValue v = some (.integer key) ∧ m.store.toInteger v = n ∧
      (key = n ↔ v.isInfinite = false) ∧
      (∀ held, (Builtin.call held .intval none [v]).run m = .ok (.integer n) m ∧
        (Key.ofValue (.integer n) = Key.ofValue v ↔ v.isInfinite = false)) ∧
      (∀ user frame e m₀, (evalExpr user frame e).run m₀ = .ok v m →
        (evalKey user frame (some e)).run m₀ = .ok (some (.integer key)) m) ∧
      (∀ x negative mantissa exponent, v = .float x →
        Binary64.ofFloat x = .finite negative mantissa exponent →
          key.toInt = heldToWord ((if negative then -1 else 1) * ⌊(mantissa : ℚ) * 2 ^ exponent⌋)) ∧
      (∀ x, v = .float x → Binary64.ofFloat x = .nan → key = 0) ∧
      (∀ x negative, v = .float x → Binary64.ofFloat x = .infinite negative →
        n = 0 ∧ key = if negative then Int64.minValue else Int64.maxValue) := by
  obtain ⟨key, isKey, agrees⟩ := key_of_numeric m.store numeric
  have floats (x : Float) (isFloat : v = .float x) : floatToKey x = key := by
    rw [isFloat] at isKey
    simpa [Key.ofValue] using isKey
  refine ⟨key, m.store.toInteger v, isKey, rfl, agrees, ?_, ?_, ?_, ?_, ?_⟩
  · intro held
    refine ⟨run_intval held m v, ?_⟩
    rw [isKey, ← agrees]
    have swapped : m.store.toInteger v = key ↔ key = m.store.toInteger v := eq_comm
    simpa [Key.ofValue] using swapped
  · intro user frame e m₀ evaluated
    rw [evalKey, Run.run_bind evaluated, isKey]
    rfl
  · intro x negative mantissa exponent isFloat shape
    rw [← floats x isFloat, floatToKey_of_finite shape, toInt_ofIntClamp_eq,
      Binary64.truncate_finite]
  · intro x isFloat shape
    rw [← floats x isFloat, floatToKey, shape]
    decide
  · intro x negative isFloat shape
    rw [← floats x isFloat, floatToKey_of_infinite shape, isFloat]
    exact ⟨floatToInteger_of_infinite shape, rfl⟩

/-- The key of `-2.5`. -/
theorem numeric_keys_are_integers_fraction :
    let m : Machine := (Session.create .default false [] .unlimited .unlimited).boot ⟨[], [], 0⟩
    let v : Value := .float (Float.ofBits 0xC004000000000000)
    v.isNumeric = true ∧ v.isInfinite = false ∧ Key.ofValue v = some (.integer (-2)) ∧
      (Builtin.call [] .intval none [v]).run m = .ok (.integer (-2)) m := by
  intro m v
  have finite : v.isInfinite = false := by decide +kernel
  have integer : m.store.toInteger v = -2 := by decide +kernel
  obtain ⟨key, n, isKey, isInteger, agrees, intval, -⟩ :=
    numeric_keys_are_integers m (v := v) rfl
  have isCount : n = -2 := isInteger.symm.trans integer
  rw [isKey, agrees.mpr finite, isCount]
  exact ⟨rfl, finite, rfl, isCount ▸ (intval []).1⟩

/-- `1e308 * 10.0` -/
def infiniteProduct : Node :=
  .expression (.float (Float.ofBits 0x7FE1CCF385EBC8A0))
    [⟨"*", .float (Float.ofBits 0x4024000000000000)⟩]

/-- `return [9223372036854775807 => 1][index];` -/
def readsAtGreatest (index : Node) : Node := .program [
  .returnStatement (some (.arrayIndex
    (.arrayLiteral [.keyValuePair (.integer Int64.maxValue) (.integer 1)]) [some index] false))]

/-- The infinities are floats whose integer is 0 and whose keys are the two ends of the range; so an
element under the greatest word is found under an infinity, which `intval` makes 0. -/
theorem infinite_keys_are_ends :
    let m : Machine := (Session.start .default []).boot ⟨[], [], 0⟩
    let v : Value := .float (Float.ofBits 0x7FF0000000000000)
    let w : Value := .float (Float.ofBits 0xFFF0000000000000)
    (v.isNumeric = true ∧ Key.ofValue v = some (.integer Int64.maxValue) ∧
      (Builtin.call [] .intval none [v]).run m = .ok (.integer 0) m) ∧
    (w.isNumeric = true ∧ Key.ofValue w = some (.integer Int64.minValue) ∧
      (Builtin.call [] .intval none [w]).run m = .ok (.integer 0) m) ∧
    ¬ (∀ (st : Store) (v : Value), v.isNumeric = true →
      Key.ofValue v = some (.integer (st.toInteger v))) ∧
    Store.givesInteger 1
      ((Session.start .default []).evaluate (readsAtGreatest infiniteProduct)) = true := by
  intro m v w
  have key : Key.ofValue v = some (.integer Int64.maxValue) := by decide +kernel
  have zero (st : Store) : st.toInteger v = 0 :=
    @floatToInteger_of_infinite _ false (by decide +kernel)
  have zero' : m.store.toInteger w = 0 :=
    @floatToInteger_of_infinite _ true (by decide +kernel)
  refine ⟨⟨rfl, key, ?_⟩, ⟨rfl, by decide +kernel, ?_⟩, ?_, by decide +kernel⟩
  · rw [run_intval, zero]
  · rw [run_intval, zero']
  · intro agree
    have same := agree .empty v rfl
    rw [key, zero] at same
    exact absurd same (by decide)

end TreeScript
