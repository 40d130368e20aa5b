import Mathlib.Data.Rat.Floor
import TreeScript.Operator.Apply
import TreeScript.Proofs.Numerals
import TreeScript.Proofs.Run
import TreeScript.Session

set_option autoImplicit false

/- Arithmetic on values that count as integers: sums, differences, products and quotients are exact
or floats, remainders and shifts exact for all operands for which they are defined. -/
namespace TreeScript

/-- A value counts as an integer in arithmetic. Arrays and objects take no part in it. -/
structure Store.CountsAs (st : Store) (v : Value) (n : Int64) : Prop where
  scalar : v.isCompound = false
  number : st.toNumber v = .integer n

/-- What an operator makes of two values on a machine, which it leaves as it was. -/
def Machine.Gives (m : Machine) (operator : BinaryOperator) (v w result : Value) : Prop :=
  ∀ held, (applyBinary held operator v w).run m = .ok result m

/-- The error with which an operator refuses two values on a machine, which it leaves as it was. -/
def Machine.Refuses (m : Machine) (operator : BinaryOperator) (v w : Value) (e : ScriptError) :
    Prop :=
  ∀ held, (applyBinary held operator v w).run m = .error (.script e) m

/-- The integer that meets a condition, and a float where none does. -/
structure Value.Exact (v : Value) (meets : Int64 → Prop) : Prop where
  integer : ∀ n, v = .integer n ↔ meets n
  float : (∀ n, ¬ meets n) → ∃ x, v = .float x

/-! Words -/

theorem exact_float {meets : Int64 → Prop} (x : Float) (none : ∀ n, ¬ meets n) :
    (Value.float x).Exact meets :=
  ⟨fun n => iff_of_false (by simp) (none n), fun _ => ⟨x, rfl⟩⟩

theorem exact_of_result (result : Int) (approximate : Float) :
    (Number.exact result approximate).toValue.Exact fun n => n.toInt = result := by
  rw [Number.exact]
  cases fits : fitWord result with
  | some n =>
      have same : n.toInt = result := fitWord_eq_some_iff.mp fits
      refine ⟨fun k => ?_, fun none => absurd same (none n)⟩
      show Value.integer n = .integer k ↔ k.toInt = result
      rw [Value.integer.injEq, ← same, Int64.toInt_inj, eq_comm]
  | none =>
      have outside : ∀ n : Int64, n.toInt ≠ result := fun n same => by
        rw [fitWord_eq_some_iff.mpr same] at fits
        cases fits
      exact exact_float approximate outside

theorem quotient_exact (x : Int64) {y : Int64} (nonzero : y ≠ 0) :
    ∃ quotient, Number.divide (.integer x) (.integer y) = some quotient ∧
      quotient.toValue.Exact fun q => q.toInt * y.toInt = x.toInt := by
  have divisor : (Number.integer y).isZero = false := by simpa [Number.isZero] using nonzero
  have apart : y.toInt ≠ 0 := fun zero => nonzero (Int64.toInt_inj.mp zero)
  simp only [Number.divide, divisor, Bool.false_eq_true, if_false]
  split
  · next whole =>
      refine ⟨_, rfl, ?_⟩
      have divides : x.toInt.tdiv y.toInt * y.toInt = x.toInt :=
        Int.tdiv_mul_cancel (Int.dvd_of_tmod_eq_zero whole)
      have same : ∀ q : Int64, q.toInt = x.toInt.tdiv y.toInt ↔ q.toInt * y.toInt = x.toInt := by
        intro q
        constructor
        · intro isQuotient
          rw [isQuotient, divides]
        · intro product
          rw [← divides] at product
          exact Int.eq_of_mul_eq_mul_right apart product
      have exact := exact_of_result (x.toInt.tdiv y.toInt) (wordToFloat x / wordToFloat y)
      simp only [same] at exact
      exact exact
  · next broken =>
      refine ⟨_, rfl, exact_float _ fun q product => broken ?_⟩
      exact Int.tmod_eq_zero_of_dvd ⟨q.toInt, by rw [← product, Int.mul_comm]⟩

theorem toInt_remainder (x : Int64) {y : Int64} (nonzero : y ≠ 0) :
    (remainder x y).toInt = x.toInt.tmod y.toInt := by
  have apart : y.toInt ≠ 0 := fun zero => nonzero (Int64.toInt_inj.mp zero)
  have least : -2 ^ 63 ≤ y.toInt := y.le_toInt
  have greatest : y.toInt < 2 ^ 63 := y.toInt_lt
  have size : (x.toInt.tmod y.toInt).natAbs = x.toInt.natAbs % y.toInt.natAbs :=
    Int.natAbs_tmod x.toInt y.toInt
  have below : x.toInt.natAbs % y.toInt.natAbs < y.toInt.natAbs :=
    Nat.mod_lt _ (Int.natAbs_pos.mpr apart)
  exact Int64.toInt_ofInt_of_le (by omega) (by omega)

theorem toInt_shiftLeft (x : Int64) (amount : Nat) :
    (shiftLeft x amount).toInt = (x.toInt * 2 ^ amount).bmod (2 ^ 64) := by
  rw [shiftLeft]
  split
  · next wide =>
      -- all bits are shifted out
      have power : (2 : Int) ^ amount = 2 ^ (amount - 64) * (2 ^ 64 : Nat) := by
        rw [← Nat.sub_add_cancel wide, pow_add, Nat.add_sub_cancel]
        norm_cast
      rw [power, ← Int.mul_assoc, Int.mul_bmod_left]
      rfl
  · rw [Int64.toInt_ofInt, Nat.shiftLeft_eq, Nat.one_mul]
    norm_cast

theorem toInt_shiftRight (x : Int64) (amount : Nat) :
    (shiftRight x amount).toInt = ⌊(x.toInt : ℚ) / 2 ^ amount⌋ := by
  have least : -2 ^ 63 ≤ x.toInt := x.le_toInt
  have greatest : x.toInt < 2 ^ 63 := x.toInt_lt
  have floor : ⌊(x.toInt : ℚ) / 2 ^ amount⌋ = x.toInt / (2 ^ amount : Nat) := by
    rw [← Rat.floor_intCast_div_natCast]
    norm_cast
  have positive : 0 < 2 ^ amount := Nat.two_pow_pos amount
  rw [floor, shiftRight]
  split
  · next wide =>
      have power : 2 ^ 64 ≤ 2 ^ amount := Nat.pow_le_pow_right (by omega) wide
      split
      · next negative =>
          have below : x.toInt < 0 := Int64.lt_iff_toInt_lt.mp negative
          have quotient : x.toInt / (2 ^ amount : Nat) = -1 := by
            rw [Int.ediv_eq_iff_of_pos (by omega)]
            omega
          rw [quotient]
          rfl
      · next positive =>
          have above : 0 ≤ x.toInt := by
            rw [Int64.lt_iff_toInt_lt] at positive
            exact Int.not_lt.mp positive
          rw [Int.ediv_eq_zero_of_lt above (by omega)]
          rfl
  · rw [Int.shiftRight_eq_div_pow]
    have low : -2 ^ 63 ≤ x.toInt / (2 ^ amount : Nat) := by
      rw [Int.le_ediv_iff_mul_le (by omega)]
      omega
    have high : x.toInt / (2 ^ amount : Nat) < 2 ^ 63 := by
      rw [Int.ediv_lt_iff_lt_mul (by omega)]
      omega
    exact Int64.toInt_ofInt_of_le low high

/-! Operators on the machine -/

variable {m : Machine} {v w : Value} {x y : Int64}

theorem Store.CountsAs.toInteger {st : Store} (counts : st.CountsAs v x) : st.toInteger v = x := by
  have number := counts.number
  cases v with
  | string s =>
      simp only [Store.toNumber, Store.toInteger] at number ⊢
      split at number
      · next n complete leading => rw [leading, number]
      · next leading =>
          rw [leading]
          exact Number.integer.inj number
  | float f => cases number
  | _ => exact Number.integer.inj number

theorem run_requireScalars (operator : BinaryOperator) (left : v.isCompound = false)
    (right : w.isCompound = false) : (requireScalars operator v w).run m = .ok () m := by
  simp only [requireScalars, left, right, Bool.or_self, Bool.false_eq_true, if_false]
  rfl

theorem run_requireScalars_compound (operator : BinaryOperator)
    (compound : (v.isCompound || w.isCompound) = true) :
    (requireScalars operator v w).run m =
      .error (.script (.unsupportedOperands v.typeTag operator.symbol w.typeTag)) m := by
  simp only [requireScalars, compound, if_true]
  rfl

theorem run_arithmetic_scalars (operator : BinaryOperator)
    (f : Number → Number → Option Number) (left : v.isCompound = false)
    (right : w.isCompound = false) :
    (arithmetic operator f v w).run m =
      match f (m.store.toNumber v) (m.store.toNumber w) with
      | some result => .ok result.toValue m
      | none => .error (.script .divisionByZero) m := by
  rw [arithmetic, Run.run_bind (run_requireScalars operator left right)]
  show Run.run (match f (m.store.toNumber v) (m.store.toNumber w) with
    | some n => pure n.toValue
    | none => Run.fail .divisionByZero) m = _
  cases f (m.store.toNumber v) (m.store.toNumber w) with
  | some result => rfl
  | none => rfl

theorem run_arithmetic {f : Number → Number → Option Number} {result : Number}
    (operator : BinaryOperator) (left : m.store.CountsAs v x) (right : m.store.CountsAs w y)
    (value : f (.integer x) (.integer y) = some result) :
    (arithmetic operator f v w).run m = .ok result.toValue m := by
  rw [run_arithmetic_scalars operator f left.scalar right.scalar, left.number, right.number, value]

theorem run_arithmetic_none {f : Number → Number → Option Number} (operator : BinaryOperator)
    (left : m.store.CountsAs v x) (right : m.store.CountsAs w y)
    (refused : f (.integer x) (.integer y) = none) :
    (arithmetic operator f v w).run m = .error (.script .divisionByZero) m := by
  rw [run_arithmetic_scalars operator f left.scalar right.scalar, left.number, right.number,
    refused]

theorem run_shift (operator : BinaryOperator) (f : Int64 → Nat → Int64)
    (left : m.store.CountsAs v x) (right : m.store.CountsAs w y) :
    (shift operator f v w).run m =
      if y < 0 then .error (.script .negativeShift) m
      else .ok (.integer (f x y.toInt.toNat)) m := by
  rw [shift, Run.run_bind (run_requireScalars operator left.scalar right.scalar)]
  show Run.run (if (m.store.toInteger w).toInt < 0 then Run.fail .negativeShift
    else pure (Value.integer (f (m.store.toInteger v) (m.store.toInteger w).toInt.toNat))) m = _
  have negative : y.toInt < 0 ↔ y < 0 := by rw [Int64.lt_iff_toInt_lt, Int64.toInt_zero]
  rw [left.toInteger, right.toInteger]
  by_cases below : y < 0
  · rw [if_pos below, if_pos (negative.mpr below)]
    rfl
  · rw [if_neg below, if_neg (fun less => below (negative.mp less))]
    rfl

theorem run_modulo (held : List Handle) (left : m.store.CountsAs v x)
    (right : m.store.CountsAs w y) :
    (applyBinary held .modulo v w).run m =
      if y = 0 then .error (.script .moduloByZero) m
      else .ok (.integer (remainder x y)) m := by
  rw [applyBinary, Run.run_bind (run_requireScalars .modulo left.scalar right.scalar)]
  show Run.run (if m.store.toInteger w == 0 then Run.fail .moduloByZero
    else pure (Value.integer (remainder (m.store.toInteger v) (m.store.toInteger w)))) m = _
  rw [left.toInteger, right.toInteger]
  by_cases zero : y = 0
  · rw [if_pos zero, if_pos (by simp [zero])]
    rfl
  · rw [if_neg zero, if_neg (by simp [zero])]
    rfl

/-- Sums are sums of numbers, except for those of two arrays. -/
theorem applyBinary_add (held : List Handle) (noUnion : ∀ a b, v = .array a → w ≠ .array b) :
    applyBinary held .add v w = arithmetic .add (fun m n => some (m.add n)) v w := by
  rw [applyBinary]
  exact noUnion

/-- The operators that reckon with numbers. -/
def BinaryOperator.isArithmetic : BinaryOperator → Bool
  | .add | .subtract | .multiply | .divide | .modulo | .shiftLeft | .shiftRight => true
  | _ => false

/-- Only two arrays have a sum among arrays and objects. -/
theorem refuses_compound {operator : BinaryOperator} (reckons : operator.isArithmetic = true)
    (compound : (v.isCompound || w.isCompound) = true)
    (noUnion : operator = .add → ∀ a b, v = .array a → w ≠ .array b) :
    m.Refuses operator v w (.unsupportedOperands v.typeTag operator.symbol w.typeTag) := by
  intro held
  have refused := run_requireScalars_compound (m := m) operator compound
  cases operator with
  | add =>
      rw [applyBinary_add held (noUnion rfl)]
      exact Run.run_bind_error refused
  | subtract | multiply | divide | modulo | shiftLeft | shiftRight =>
      exact Run.run_bind_error refused
  | _ => cases reckons

/-- Operators on values that count as integers. A sum, a difference and a product is the integer if
a word holds it, else a float; so is a quotient, if the division comes out even. A remainder has the
sign of the dividend. A shift to the left gives the low bits, one to the right the floor, by any
amount. Division by zero and shifts by a negative amount are refused, and so are arrays and objects,
except for the sum of two arrays. -/
theorem integer_arithmetic_exact (m : Machine) {v w : Value} {x y : Int64}
    (left : m.store.CountsAs v x) (right : m.store.CountsAs w y) :
    (∃ sum, m.Gives .add v w sum ∧ sum.Exact fun r => r.toInt = x.toInt + y.toInt) ∧
    (∃ difference, m.Gives .subtract v w difference ∧
      difference.Exact fun r => r.toInt = x.toInt - y.toInt) ∧
    (∃ product, m.Gives .multiply v w product ∧
      product.Exact fun r => r.toInt = x.toInt * y.toInt) ∧
    (y = 0 → m.Refuses .divide v w .divisionByZero ∧ m.Refuses .modulo v w .moduloByZero) ∧
    (y ≠ 0 → ∃ quotient, m.Gives .divide v w quotient ∧
      quotient.Exact fun q => q.toInt * y.toInt = x.toInt) ∧
    (y ≠ 0 → ∃ rest, m.Gives .modulo v w (.integer rest) ∧
      rest.toInt = x.toInt.tmod y.toInt) ∧
    (y < 0 → m.Refuses .shiftLeft v w .negativeShift ∧ m.Refuses .shiftRight v w .negativeShift) ∧
    (0 ≤ y → ∃ shifted, m.Gives .shiftLeft v w (.integer shifted) ∧
      shifted.toInt = (x.toInt * 2 ^ y.toInt.toNat).bmod (2 ^ 64)) ∧
    (0 ≤ y → ∃ shifted, m.Gives .shiftRight v w (.integer shifted) ∧
      shifted.toInt = ⌊(x.toInt : ℚ) / 2 ^ y.toInt.toNat⌋) ∧
    ∀ (operator : BinaryOperator) (v w : Value), operator.isArithmetic = true →
      (v.isCompound || w.isCompound) = true →
      (operator = .add → ∀ a b, v = .array a → w ≠ .array b) →
      m.Refuses operator v w (.unsupportedOperands v.typeTag operator.symbol w.typeTag) := by
  refine ⟨?sum, ?difference, ?product, ?zero, ?quotient, ?rest, ?negative, ?up, ?down, ?compound⟩
  case sum =>
    refine ⟨_, fun held => ?_, exact_of_result _ (wordToFloat x + wordToFloat y)⟩
    have noArray : ∀ a b, v = .array a → w ≠ .array b := fun a _ isArray => by
      have scalar := left.scalar
      rw [isArray] at scalar
      cases scalar
    rw [applyBinary_add held noArray]
    exact run_arithmetic .add left right rfl
  case difference =>
    refine ⟨_, fun held => ?_, exact_of_result _ (wordToFloat x - wordToFloat y)⟩
    rw [applyBinary]
    exact run_arithmetic .subtract left right rfl
  case product =>
    refine ⟨_, fun held => ?_, exact_of_result _ (wordToFloat x * wordToFloat y)⟩
    rw [applyBinary]
    exact run_arithmetic .multiply left right rfl
  case zero =>
    intro zero
    have refused : Number.divide (.integer x) (.integer y) = none := by
      simp [Number.divide, Number.isZero, zero]
    refine ⟨fun held => run_arithmetic_none .divide left right refused, fun held => ?_⟩
    rw [run_modulo held left right, if_pos zero]
  case quotient =>
    intro nonzero
    obtain ⟨quotient, divided, exact⟩ := quotient_exact x nonzero
    exact ⟨_, fun held => run_arithmetic .divide left right divided, exact⟩
  case rest =>
    intro nonzero
    refine ⟨remainder x y, fun held => ?_, toInt_remainder x nonzero⟩
    rw [run_modulo held left right, if_neg nonzero]
  case negative =>
    intro negative
    have refused (operator : BinaryOperator) (f : Int64 → Nat → Int64) :
        (shift operator f v w).run m = .error (.script .negativeShift) m := by
      rw [run_shift operator f left right, if_pos negative]
    exact ⟨fun held => refused .shiftLeft TreeScript.shiftLeft,
      fun held => refused .shiftRight TreeScript.shiftRight⟩
  case up =>
    intro positive
    refine ⟨_, fun held => ?_, toInt_shiftLeft x y.toInt.toNat⟩
    have shifted := run_shift .shiftLeft TreeScript.shiftLeft left right
    rwa [if_neg (Int64.not_lt.mpr positive)] at shifted
  case down =>
    intro positive
    refine ⟨_, fun held => ?_, toInt_shiftRight x y.toInt.toNat⟩
    have shifted := run_shift .shiftRight TreeScript.shiftRight left right
    rwa [if_neg (Int64.not_lt.mpr positive)] at shifted
  case compound =>
    exact fun operator v w reckons compound noUnion => refuses_compound reckons compound noUnion

/-- The least word, as a text, and `-1`: the quotient would be one too great for a word. -/
theorem integer_arithmetic_exact_least :
    let m : Machine := (Session.create .default false [] .unlimited .unlimited).boot ⟨[], [], 0⟩
    m.store.CountsAs (.string "-9223372036854775808") Int64.minValue ∧
    (∃ quotient,
      m.Gives .divide (.string "-9223372036854775808") (.integer (-1)) (.float quotient)) ∧
    m.Gives .modulo (.string "-9223372036854775808") (.integer (-1)) (.integer 0) := by
  intro m
  have text : "" ++ toString Int64.minValue.toInt ++ "" = "-9223372036854775808" := by decide
  have leading : leadingNumber ("" ++ toString Int64.minValue.toInt ++ "") =
      some (.integer Int64.minValue, true) :=
    leadingNumber_decimal Int64.minValue (by simp) (by simp)
  have left : m.store.CountsAs (.string "-9223372036854775808") Int64.minValue :=
    ⟨rfl, by rw [Store.toNumber, ← text, leading]⟩
  have right : m.store.CountsAs (.integer (-1)) (-1) := ⟨rfl, rfl⟩
  obtain ⟨-, -, -, -, quotient, rest, -⟩ := integer_arithmetic_exact m left right
  obtain ⟨q, divided, exact⟩ := quotient (by decide)
  obtain ⟨r, reduced, isRest⟩ := rest (by decide)
  have none : ∀ n : Int64, ¬ n.toInt * (-1 : Int64).toInt = Int64.minValue.toInt := by
    intro n product
    have greatest : n.toInt < 2 ^ 63 := n.toInt_lt
    have least : Int64.minValue.toInt = -2 ^ 63 := Int64.toInt_minValue
    have minus : (-1 : Int64).toInt = -1 := rfl
    rw [minus, least] at product
    omega
  obtain ⟨f, rfl⟩ := exact.float none
  have zero : r = 0 := Int64.toInt_inj.mp (by rw [isRest]; decide)
  exact ⟨left, ⟨f, divided⟩, zero ▸ reduced⟩

end TreeScript
