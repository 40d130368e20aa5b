import TreeScript.Proofs.Numerals.Nearest
import TreeScript.Store.Comparison

set_option autoImplicit false

/- Doubles in comparisons and sums: their order reversed, a number equal to itself, a sum turned
round, and that the double of a numeral is a number. -/
namespace TreeScript

open Float.Model (UnpackedFloat Format)
open Float.Model.UnpackedFloat (unpackExponent unpackMantissa unpackExponent_packComponents
  unpackMantissa_packComponents)

/-! The order of doubles taken apart -/

theorem unpacked_compare_swap (x y : UnpackedFloat) :
    y.compare x = (x.compare y).map Ordering.swap := by
  cases x with
  | notANumber => cases y <;> rfl
  | infinity s =>
      cases y with
      | finite t n f _ => cases s <;> cases t <;> rfl
      | infinity t => cases s <;> cases t <;> rfl
      | _ => cases s <;> rfl
  | zero s =>
      cases y with
      | finite t n f _ => cases t <;> rfl
      | infinity t => cases t <;> rfl
      | _ => rfl
  | finite s m e _ =>
      cases y with
      | notANumber => cases s <;> rfl
      | infinity t => cases s <;> cases t <;> rfl
      | zero t => cases s <;> rfl
      | finite t n f _ =>
          have exponents : Ord.compare f e = (Ord.compare e f).swap := Std.OrientedOrd.eq_swap
          have mantissas : Ord.compare n m = (Ord.compare m n).swap := Std.OrientedOrd.eq_swap
          cases s <;> cases t <;> dsimp only [UnpackedFloat.compare] <;>
            simp [exponents, mantissas, Ordering.swap_then]

theorem unpacked_compare_finite {s t : UnpackedFloat.Sign} {m n : Nat} {e f : Int} (h : 0 < m)
    (h' : 0 < n) :
    (UnpackedFloat.finite s m e h).compare (.finite t n f h') = some .eq ↔
      s = t ∧ m = n ∧ e = f := by
  cases s <;> cases t <;> dsimp only [UnpackedFloat.compare] <;> simp [and_comm]

/-- Two zeros are equal whatever their signs, and otherwise only a number and itself. -/
theorem unpacked_compare_eq_iff (x y : UnpackedFloat) :
    x.compare y = some .eq ↔
      (x ≠ .notANumber ∧ x = y) ∨ ∃ s t, x = .zero s ∧ y = .zero t := by
  constructor
  · intro equal
    cases x with
    | notANumber => cases y <;> cases equal
    | infinity s =>
        cases y with
        | infinity t =>
            obtain rfl : s = t := by cases s <;> cases t <;> first | rfl | cases equal
            exact .inl ⟨UnpackedFloat.noConfusion, rfl⟩
        | _ => cases s <;> cases equal
    | zero s =>
        cases y with
        | notANumber => cases equal
        | zero t => exact .inr ⟨s, t, rfl, rfl⟩
        | infinity t => cases t <;> cases equal
        | finite t n f _ => cases t <;> cases equal
    | finite s m e positive =>
        cases y with
        | infinity t => cases s <;> cases t <;> cases equal
        | finite t n f positive' =>
            obtain ⟨rfl, rfl, rfl⟩ := (unpacked_compare_finite positive positive').mp equal
            exact .inl ⟨UnpackedFloat.noConfusion, rfl⟩
        | _ => cases s <;> cases equal
  · rintro (⟨number, rfl⟩ | ⟨s, t, rfl, rfl⟩)
    · cases x with
      | notANumber => exact absurd rfl number
      | infinity s => cases s <;> rfl
      | zero s => rfl
      | finite s m e positive =>
          exact (unpacked_compare_finite positive positive).mpr ⟨rfl, rfl, rfl⟩
    · rfl

theorem unpacked_compare_eq_trans {x y z : UnpackedFloat} (first : x.compare y = some .eq)
    (second : y.compare z = some .eq) : x.compare z = some .eq := by
  rw [unpacked_compare_eq_iff] at first second
  rcases first with ⟨-, rfl⟩ | ⟨s, t, rfl, rfl⟩
  · exact (unpacked_compare_eq_iff x z).mpr second
  · rcases second with ⟨-, rfl⟩ | ⟨_, u, -, rfl⟩ <;> rfl

/-! The order of doubles -/

theorem float_lt_iff (x y : Float) :
    x < y ↔ x.toModel.unpack.compare y.toModel.unpack = some .lt := by
  change x.lt y = true ↔ _
  rw [Float.lt, decide_eq_true_iff]
  exact beq_iff_eq

theorem float_beq_iff (x y : Float) :
    (x == y) = true ↔ x.toModel.unpack.compare y.toModel.unpack = some .eq := by
  change (x.toModel.unpack.compare y.toModel.unpack == some .eq) = true ↔ _
  exact beq_iff_eq

theorem compareFloats_eq (x y : Float) :
    compareFloats x y = x.toModel.unpack.compare y.toModel.unpack := by
  have above : x > y ↔ x.toModel.unpack.compare y.toModel.unpack = some .gt := by
    rw [GT.gt, float_lt_iff, unpacked_compare_swap]
    cases x.toModel.unpack.compare y.toModel.unpack with
    | none => simp
    | some order => cases order <;> simp
  simp only [compareFloats, float_lt_iff, above, float_beq_iff]
  cases x.toModel.unpack.compare y.toModel.unpack with
  | none => rfl
  | some order => cases order <;> rfl

theorem compareFloats_swap (x y : Float) :
    compareFloats y x = (compareFloats x y).map Ordering.swap := by
  rw [compareFloats_eq, compareFloats_eq, unpacked_compare_swap]

theorem float_beq_iff_compare (x y : Float) : (x == y) = true ↔ compareFloats x y = some .eq := by
  rw [compareFloats_eq, float_beq_iff]

theorem isNaN_eq_false_iff (x : Float) : x.isNaN = false ↔ x.toModel.unpack ≠ .notANumber := by
  change x.toModel.unpack.isNaN = false ↔ _
  cases x.toModel.unpack with
  | notANumber => exact iff_of_false Bool.noConfusion fun number => number rfl
  | _ => exact iff_of_true rfl UnpackedFloat.noConfusion

/-- A number is equal to itself. -/
theorem float_beq_self {x : Float} (number : x.isNaN = false) : (x == x) = true := by
  rw [float_beq_iff, unpacked_compare_eq_iff]
  exact .inl ⟨(isNaN_eq_false_iff x).mp number, rfl⟩

theorem float_beq_comm (x y : Float) : (x == y) = (y == x) := by
  rw [Bool.eq_iff_iff, float_beq_iff, float_beq_iff, unpacked_compare_swap x.toModel.unpack]
  cases x.toModel.unpack.compare y.toModel.unpack <;> simp

theorem float_beq_trans {x y z : Float} (first : (x == y) = true) (second : (y == z) = true) :
    (x == z) = true := by
  rw [float_beq_iff] at first second ⊢
  exact unpacked_compare_eq_trans first second

/-! Sums of doubles -/

theorem unpacked_add_comm (format : Format) (x y : UnpackedFloat) :
    y.add format x = x.add format y := by
  cases x with
  | notANumber => cases y <;> rfl
  | infinity s =>
      cases y with
      | infinity t => cases s <;> cases t <;> rfl
      | _ => rfl
  | zero s =>
      cases y with
      | zero t => cases s <;> cases t <;> rfl
      | _ => rfl
  | finite s m e _ =>
      cases y with
      | finite t n f _ =>
          dsimp only [UnpackedFloat.add]
          rw [Int.min_comm f e, Int.add_comm]
      | _ => rfl

theorem float_add_comm (x y : Float) : x + y = y + x := by
  show Float.ofModel (.pack (.add .binary64 x.toModel.unpack y.toModel.unpack)) =
    Float.ofModel (.pack (.add .binary64 y.toModel.unpack x.toModel.unpack))
  rw [unpacked_add_comm]

/-! The doubles of numerals -/

theorem unpack_eq_nan_iff (bits : BitVec Format.binary64.numBits) :
    UnpackedFloat.unpack .binary64 bits = .notANumber ↔
      unpackExponent bits = -1#11 ∧ unpackMantissa bits ≠ 0#52 := by
  unfold UnpackedFloat.unpack
  dsimp only
  by_cases top : unpackExponent bits = -1#_
  · rw [if_pos top]
    by_cases zero : unpackMantissa bits = 0#_
    · rw [if_pos zero]
      exact iff_of_false UnpackedFloat.noConfusion fun parts => parts.2 zero
    · rw [if_neg zero]
      exact iff_of_true rfl ⟨top, zero⟩
  · rw [if_neg top]
    refine iff_of_false (fun isNaN => ?_) fun parts => top parts.1
    by_cases least : unpackExponent bits = 0#_
    · rw [if_pos least] at isNaN
      by_cases zero : unpackMantissa bits = 0#_
      · rw [dif_pos zero] at isNaN
        cases isNaN
      · rw [dif_neg zero] at isNaN
        cases isNaN
    · rw [if_neg least] at isNaN
      cases isNaN

/-- A number that is packed is one when it is taken apart again. -/
theorem unpack_pack_number {u : UnpackedFloat} (number : u ≠ .notANumber) :
    (Float.Model.pack u).unpack ≠ .notANumber := by
  change UnpackedFloat.unpack .binary64 (UnpackedFloat.pack .binary64 u) ≠ .notANumber
  rw [ne_eq, unpack_eq_nan_iff]
  rintro ⟨exponent, mantissa⟩
  cases u with
  | notANumber => exact number rfl
  | infinity s => exact mantissa unpackMantissa_packComponents
  | zero s =>
      change unpackExponent (UnpackedFloat.packedZero .binary64 s) = -1#11 at exponent
      rw [UnpackedFloat.packedZero, unpackExponent_packComponents] at exponent
      cases exponent
  | finite s m e positive =>
      unfold UnpackedFloat.pack at exponent mantissa
      dsimp only at exponent mantissa
      split at exponent
      · next large =>
          rw [if_pos large] at mantissa
          exact mantissa unpackMantissa_packComponents
      · next small =>
          split at exponent
          · rw [unpackExponent_packComponents] at exponent
            have same := congrArg BitVec.toNat exponent
            simp at same small
            omega
          · rw [unpackExponent_packComponents] at exponent
            cases exponent

theorem isNaN_neg {x : Float} (number : x.isNaN = false) : (-x).isNaN = false := by
  rw [isNaN_eq_false_iff] at number ⊢
  have negated : x.toModel.unpack.neg ≠ .notANumber := by
    cases unpacked : x.toModel.unpack with
    | notANumber => exact absurd unpacked number
    | _ => exact UnpackedFloat.noConfusion
  exact unpack_pack_number negated

/-- The bits up to those of infinity are those of numbers. -/
theorem isNaN_ofBits {bits : UInt64} (below : bits.toNat ≤ 2047 * Binary64.hiddenBit) :
    (Float.ofBits bits).isNaN = false := by
  rw [isNaN_eq_false_iff]
  refine unpack_pack_number fun isNaN => ?_
  obtain ⟨exponent, mantissa⟩ := (unpack_eq_nan_iff _).mp isNaN
  have scale : bits.toNat / 2 ^ 52 % 2048 = 2047 := by
    simpa [unpackExponent, BitVec.extractLsb_toNat, Nat.shiftRight_eq_div_pow] using
      congrArg BitVec.toNat exponent
  have fraction : bits.toNat % 2 ^ 52 ≠ 0 := fun zero =>
    mantissa (BitVec.eq_of_toNat_eq (by simpa [unpackMantissa, BitVec.extractLsb_toNat] using zero))
  rw [Binary64.hiddenBit] at below
  omega

theorem Binary64.isNaN_nearest (x : Rat) : (nearest x).isNaN = false := by
  unfold nearest
  split
  · exact isNaN_ofBits (Nat.zero_le _)
  · refine isNaN_ofBits ?_
    rw [UInt64.toNat_ofNat']
    exact Nat.le_trans (Nat.mod_le _ _) (Nat.min_le_right _ _)

theorem Decimal.isNaN_toFloat (d : Decimal) : d.toFloat.isNaN = false := by
  rw [toFloat_eq]
  exact Binary64.isNaN_nearest d.toRat

theorem Numeral.isNaN_toFloat (t : Numeral) : t.toFloat.isNaN = false := by
  unfold toFloat
  dsimp only
  split
  · exact isNaN_neg (Decimal.isNaN_toFloat _)
  · exact Decimal.isNaN_toFloat _

theorem Numeral.toNumber_number (t : Numeral) {x : Float} (isFloat : t.toNumber = .float x) :
    x.isNaN = false := by
  unfold toNumber at isFloat
  split at isFloat
  · dsimp only at isFloat
    split at isFloat <;> cases isFloat
    exact t.isNaN_toFloat
  · cases isFloat
    exact t.isNaN_toFloat

/-- What a text denotes as a whole is a number. -/
theorem numericText_number {text : String} {x : Float}
    (denotes : numericText text = some (.float x)) : x.isNaN = false := by
  unfold numericText leadingNumber at denotes
  split at denotes
  · next number leading =>
      cases denotes
      split at leading
      · next t rest _ =>
          have same : t.toNumber = .float x := (Prod.mk.inj (Option.some.inj leading)).1
          exact t.toNumber_number same
      · cases leading
  · cases denotes

end TreeScript
