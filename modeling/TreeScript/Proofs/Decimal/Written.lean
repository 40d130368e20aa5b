import TreeScript.Code.Listing
import TreeScript.Proofs.Decimal.Shortest
import TreeScript.Proofs.Numerals

set_option autoImplicit false

/- Doubles as code listings write them. The text of a finite double is a numeral, which denotes the
shortest decimal; so different doubles have different texts. -/
namespace TreeScript

/-! Doubles taken apart -/

namespace Binary64

/-- The bits say that a double is not a number in one way only. -/
theorem bits_of_nan {x : Float} (isNaN : ofFloat x = .nan) :
    x.toBits.toBitVec = Float.Model.UnpackedFloat.packedNaN .binary64 := by
  have parts : x.toModel.toBits.toNat / hiddenBit % 2048 = 2047 ∧
      x.toModel.toBits.toNat % hiddenBit ≠ 0 := by
    unfold ofFloat at isNaN
    dsimp only at isNaN
    split at isNaN
    · next top =>
        split at isNaN
        · cases isNaN
        · next some => exact ⟨top, some⟩
    · split at isNaN <;> cases isNaN
  rw [hiddenBit] at parts
  refine x.toModel.valid.eq_packedNaN ?_ ?_
  · apply BitVec.eq_of_toNat_eq
    simpa [Float.Model.UnpackedFloat.unpackExponent, BitVec.extractLsb_toNat,
      Nat.shiftRight_eq_div_pow] using parts.1
  · intro none
    have zero := congrArg BitVec.toNat none
    simp [Float.Model.UnpackedFloat.unpackMantissa, BitVec.extractLsb_toNat] at zero
    exact parts.2 zero

/-- The sign, the scale and the fraction of a double that is a number. -/
inductive Fields (bits : Nat) : Binary64 → Prop
  | infinite {negative : Bool} (sign : bits / (2048 * hiddenBit) = negative.toNat)
      (scale : bits / hiddenBit % 2048 = 2047) (fraction : bits % hiddenBit = 0) :
      Fields bits (.infinite negative)
  | subnormal {negative : Bool} (sign : bits / (2048 * hiddenBit) = negative.toNat)
      (scale : bits / hiddenBit % 2048 = 0) :
      Fields bits (.finite negative (bits % hiddenBit) leastExponent)
  | normal {negative : Bool} (sign : bits / (2048 * hiddenBit) = negative.toNat)
      (scale : bits / hiddenBit % 2048 ≠ 0) (below : bits / hiddenBit % 2048 ≠ 2047) :
      Fields bits (.finite negative (bits % hiddenBit + hiddenBit)
        ((bits / hiddenBit % 2048 : Nat) - 1075))

theorem fields_ofFloat {x : Float} (isNumber : ofFloat x ≠ .nan) :
    Fields x.toBits.toNat (ofFloat x) := by
  have bound : x.toBits.toNat < 2 ^ 64 := x.toBits.toNat_lt
  have sign : x.toBits.toNat / (2048 * hiddenBit) =
      (x.toBits.toNat / (2048 * hiddenBit) == 1).toNat := by
    have atMost : x.toBits.toNat / (2048 * hiddenBit) < 2 := by
      rw [hiddenBit]
      omega
    generalize x.toBits.toNat / (2048 * hiddenBit) = s at atMost ⊢
    obtain rfl | rfl : s = 0 ∨ s = 1 := by omega
    · rfl
    · rfl
  unfold ofFloat at isNumber ⊢
  dsimp only at isNumber ⊢
  split
  · next top =>
      rw [if_pos top] at isNumber
      split
      · next none => exact .infinite sign top none
      · next some => exact absurd (if_neg some) isNumber
  · next below =>
      split
      · next zero => exact .subnormal sign zero
      · next some => exact .normal sign some below

theorem normalized_ofFloat {x : Float} {negative : Bool} {mantissa : Nat} {exponent : Int}
    (shape : ofFloat x = .finite negative mantissa exponent) : Normalized mantissa exponent := by
  have fields := fields_ofFloat (x := x) (by simp [shape])
  rw [shape] at fields
  have positive : 0 < hiddenBit := by decide
  cases fields with
  | subnormal sign scale =>
      have below : x.toBits.toNat % hiddenBit < hiddenBit := Nat.mod_lt _ positive
      exact ⟨by omega, le_refl _, fun less => absurd less (lt_irrefl _)⟩
  | normal sign scale top =>
      have below : x.toBits.toNat % hiddenBit < hiddenBit := Nat.mod_lt _ positive
      refine ⟨by omega, ?_, fun _ => Nat.le_add_left _ _⟩
      rw [leastExponent]
      omega

/-- A double is determined by what it is taken apart to. -/
theorem ofFloat_inj {x y : Float} (same : ofFloat x = ofFloat y) : x = y := by
  suffices bits : x.toBits = y.toBits by
    obtain ⟨⟨b, valid⟩⟩ := x
    obtain ⟨⟨b', valid'⟩⟩ := y
    obtain rfl : b = b' := bits
    rfl
  by_cases isNaN : ofFloat x = .nan
  · apply UInt64.toBitVec_inj.mp
    rw [bits_of_nan isNaN, bits_of_nan (same ▸ isNaN)]
  · have fields := fields_ofFloat isNaN
    have fields' := fields_ofFloat (x := y) (same ▸ isNaN)
    apply UInt64.toNat_inj.mp
    rw [← same] at fields'
    have positive : 0 < hiddenBit := by decide
    generalize x.toBits.toNat = a at fields
    generalize y.toBits.toNat = b at fields'
    have ofParts (sign : a / (2048 * hiddenBit) = b / (2048 * hiddenBit))
        (scale : a / hiddenBit % 2048 = b / hiddenBit % 2048)
        (fraction : a % hiddenBit = b % hiddenBit) : a = b := by
      rw [hiddenBit] at sign scale fraction
      omega
    have below : b % hiddenBit < hiddenBit := Nat.mod_lt _ positive
    have below' : a % hiddenBit < hiddenBit := Nat.mod_lt _ positive
    generalize ofFloat x = shape at fields fields'
    cases fields with
    | infinite sign scale fraction =>
        cases fields' with
        | infinite sign' scale' fraction' =>
            exact ofParts (sign.trans sign'.symm) (scale.trans scale'.symm)
              (fraction.trans fraction'.symm)
    | subnormal sign scale =>
        generalize mantissa_def : a % hiddenBit = mantissa at fields'
        generalize exponent_def : leastExponent = exponent at fields'
        cases fields' with
        | subnormal sign' scale' =>
            exact ofParts (sign.trans sign'.symm) (scale.trans scale'.symm) mantissa_def
        | normal sign' scale' _ => omega
    | normal sign scale top =>
        generalize mantissa_def : a % hiddenBit + hiddenBit = mantissa at fields'
        generalize exponent_def : ((a / hiddenBit % 2048 : Nat) - 1075 : Int) = exponent at fields'
        cases fields' with
        | subnormal sign' scale' => omega
        | normal sign' scale' _ =>
            exact ofParts (sign.trans sign'.symm) (by omega) (by omega)

end Binary64

/-! A numeral denotes one number -/

section numerals

variable {literal mantissa power tail : List Char} {negative : Bool} {x : ℚ} {k : Int}

theorem exponent_read (scaled : ExponentText power k) :
    ∃ exponent, Numeral.takeExponent power = (exponent, []) ∧ Numeral.exponentValue exponent = k := by
  cases scaled with
  | none => exact ⟨none, rfl, rfl⟩
  | @power mark sign ds negative isMark signed digits some =>
      have atSign : Numeral.takeSign (sign ++ ds) = (negative, ds) := by
        have read := takeSign_append signed (digits.unsigned some [])
        rwa [List.append_nil] at read
      have atDigits : Numeral.takeDigits ds = (ds, []) := by
        have read := takeDigits_append digits []
        rw [List.append_nil] at read
        simpa [Numeral.takeDigits] using read
      refine ⟨Option.some (negative, ds), ?_, ?_⟩
      · rw [takeExponent_mark isMark, atSign, atDigits, if_neg some]
      · rw [Numeral.exponentValue, digitsToNat_eq]

theorem mantissa_read (digits : MantissaText mantissa x)
    (marked : ∀ c ∈ tail.head?, c = 'e' ∨ c = 'E') :
    ∃ whole left fraction, Numeral.takeDigits (mantissa ++ tail) = (whole, left) ∧
      Numeral.takeFraction whole left = (fraction, tail) ∧ ¬ (whole = [] ∧ fraction = none) ∧
      Numeral.mantissa whole fraction = x := by
  have stays : Numeral.takeDigits tail = ([], tail) := by
    cases tail with
    | nil => rfl
    | cons c more => rcases marked c rfl with rfl | rfl <;> exact takeDigits_other rfl more
  cases digits with
  | whole digits some =>
      have noPoint : '.' ∉ tail.head? := by
        intro point
        rcases marked '.' point with same | same <;> cases same
      refine ⟨mantissa, tail, none, ?_, takeFraction_other _ noPoint, by simp [some], ?_⟩
      · rw [takeDigits_append digits, stays, List.append_nil]
      · simp [Numeral.mantissa, digitsToNat_eq]
  | @pointed ds fs digits some places =>
      refine ⟨ds, '.' :: (fs ++ tail), Option.some fs, ?_, ?_, by simp, ?_⟩
      · rw [List.append_assoc, takeDigits_append digits, List.cons_append, takeDigits_other rfl,
          List.append_nil]
      · rw [takeFraction_append places (by simp [some]), stays, List.append_nil]
      · rw [Numeral.mantissa, digitsToNat_eq]
        rfl
  | @fraction fs places some =>
      refine ⟨[], '.' :: (fs ++ tail), Option.some fs, takeDigits_other rfl _, ?_, by simp, ?_⟩
      · rw [takeFraction_append places (by simp [some]), stays, List.append_nil]
      · rw [Numeral.mantissa, digitsToNat_eq]
        rfl

/-- A numeral is read to its end, as its sign and its size. -/
theorem numeral_read (numeral : NumeralText literal negative x) :
    ∃ t, Numeral.read literal = some (t, []) ∧ t.negative = negative ∧ t.size = x := by
  cases numeral with
  | @mk sign mantissa power negative x k signed digits scaled =>
      have marked : ∀ c ∈ power.head?, c = 'e' ∨ c = 'E' := by
        intro c isHead
        cases scaled with
        | none => cases isHead
        | power isMark _ _ _ =>
            cases isHead
            exact isMark
      obtain ⟨whole, left, fraction, atDigits, atFraction, some, mantissaValue⟩ :=
        mantissa_read digits marked
      obtain ⟨exponent, atExponent, exponentValue⟩ := exponent_read scaled
      have atSign : Numeral.takeSign (sign ++ mantissa ++ power) = (negative, mantissa ++ power) := by
        rw [List.append_assoc]
        exact takeSign_append signed (digits.unsigned power)
      refine ⟨⟨negative, whole, fraction, exponent⟩, ?_, rfl, ?_⟩
      · exact read_eq_some_iff.mpr ⟨_, left, power, atSign, atDigits, atFraction, some, atExponent⟩
      · rw [Numeral.size, mantissaValue, exponentValue]

theorem NumeralText.unique {negative' : Bool} {x' : ℚ} (numeral : NumeralText literal negative x)
    (numeral' : NumeralText literal negative' x') : negative = negative' ∧ x = x' := by
  obtain ⟨t, read, isSign, isSize⟩ := numeral_read numeral
  obtain ⟨t', read', isSign', isSize'⟩ := numeral_read numeral'
  rw [read] at read'
  cases read'
  exact ⟨isSign.symm.trans isSign', isSize.symm.trans isSize'⟩

end numerals

/-! Written decimals -/

theorem Digits.append {ds fs : List Char} (first : Digits ds) (second : Digits fs) :
    Digits (ds ++ fs) := List.forall_mem_append.mpr ⟨first, second⟩

theorem minusText (negative : Bool) : SignText (if negative then ['-'] else []) negative := by
  cases negative
  · exact .none
  · exact .minus

/-- The text of a magnitude, and the number it denotes: digits on both sides of a point, or one digit
with or without further ones after a point, and a power of ten. -/
inductive MagnitudeText : List Char → ℚ → Prop
  | positional {ds fs : List Char} (digits : Digits ds) (some : ds ≠ []) (places : Digits fs)
      (any : fs ≠ []) :
      MagnitudeText (ds ++ '.' :: fs) (Nat.ofDigitChars 10 (ds ++ fs) 0 / 10 ^ fs.length)
  | scientific {c : Char} {fs ks : List Char} (negative : Bool) (digit : c.isDigit = true)
      (places : Digits fs) (digits : Digits ks) (some : ks ≠ []) :
      MagnitudeText
        (c :: ((if fs = [] then [] else '.' :: fs) ++
          'e' :: ((if negative then ['-'] else []) ++ ks)))
        (Nat.ofDigitChars 10 (c :: fs) 0 / 10 ^ fs.length *
          10 ^ (if negative then -(Nat.ofDigitChars 10 ks 0 : Int) else Nat.ofDigitChars 10 ks 0))

section magnitudes

variable {text : List Char} {x : ℚ}

theorem MagnitudeText.numeral {sign : List Char} {negative : Bool} (magnitude : MagnitudeText text x)
    (signed : SignText sign negative) : NumeralText (sign ++ text) negative x := by
  cases magnitude with
  | positional digits some places any =>
      have numeral := NumeralText.mk signed (.pointed digits some places) .none
      simpa using numeral
  | @scientific c fs ks below digit places digits some =>
      have one : Digits [c] := by simpa [Digits] using digit
      have scaled := ExponentText.power (.inl rfl) (minusText below) digits some
      by_cases none : fs = []
      · have numeral := NumeralText.mk signed (.whole one (by simp)) scaled
        simpa [none] using numeral
      · have numeral := NumeralText.mk signed (.pointed one (by simp) places) scaled
        simpa [none] using numeral

theorem MagnitudeText.first (magnitude : MagnitudeText text x) :
    ∃ c rest, text = c :: rest ∧ c.isDigit = true := by
  cases magnitude with
  | @positional ds fs digits some places any =>
      obtain ⟨c, rest, rfl⟩ := List.exists_cons_of_ne_nil some
      exact ⟨c, rest ++ '.' :: fs, rfl, digits c List.mem_cons_self⟩
  | scientific _ digit _ _ _ => exact ⟨_, _, rfl, digit⟩

/-- A magnitude shows a point or an exponent. -/
theorem MagnitudeText.mark (magnitude : MagnitudeText text x) : '.' ∈ text ∨ 'e' ∈ text := by
  cases magnitude with
  | positional => exact .inl (by simp)
  | scientific => exact .inr (by simp)

end magnitudes

namespace Decimal

theorem digits_zeros (n : Nat) : Digits (zeros n) := by
  intro c member
  rw [List.eq_of_mem_replicate member]
  rfl

theorem ofDigitChars_digits (n : Nat) (ds : List Char) :
    Nat.ofDigitChars 10 (Nat.toDigits 10 n ++ ds) 0 = Nat.ofDigitChars 10 ds n := by
  rw [Nat.ofDigitChars_append, Nat.ofDigitChars_ten_toDigits]

theorem positional_magnitude (d : Decimal) : MagnitudeText (positional d) d.toRat := by
  have digits : Digits (Nat.toDigits 10 d.digits) := digits_decimal d.digits
  have some : Nat.toDigits 10 d.digits ≠ [] := Nat.toDigits_ne_nil
  unfold positional
  dsimp only
  by_cases up : 0 ≤ d.exponent
  · obtain ⟨places, isPlaces⟩ := Int.eq_ofNat_of_zero_le up
    have count : d.exponent.toNat = places := by omega
    have value : (Nat.ofDigitChars 10 (Nat.toDigits 10 d.digits ++ zeros places ++ ['0']) 0 : ℚ) /
        10 ^ ['0'].length = d.toRat := by
      have zero : ['0'] = List.replicate 1 '0' := rfl
      rw [List.append_assoc, ofDigitChars_digits, Nat.ofDigitChars_append, zeros, zero,
        Nat.ofDigitChars_replicate_zero, Nat.ofDigitChars_replicate_zero, toRat, isPlaces]
      push_cast
      rw [zpow_natCast]
      rw [List.length_singleton]
      ring
    have split : Nat.toDigits 10 d.digits ++ zeros places ++ ['.', '0'] =
        (Nat.toDigits 10 d.digits ++ zeros places) ++ '.' :: ['0'] := rfl
    rw [if_pos up, count, split, ← value]
    exact .positional (digits.append (digits_zeros places)) (by simp [some]) (by simp [Digits])
      (by simp)
  · obtain ⟨places, isPlaces⟩ : ∃ places : Nat, d.exponent = -places :=
      ⟨d.exponent.natAbs, by omega⟩
    have count : d.exponent.natAbs = places := by omega
    have value : d.toRat = (d.digits : ℚ) / 10 ^ places := by
      rw [toRat, isPlaces, zpow_neg, zpow_natCast, div_eq_mul_inv]
    rw [if_neg up, count, value]
    by_cases fewer : places < (Nat.toDigits 10 d.digits).length
    · generalize left_def : (Nat.toDigits 10 d.digits).length - places = left
      have whole : (Nat.toDigits 10 d.digits).take left ≠ [] := by
        intro none
        have lengths := congrArg List.length none
        rw [List.length_take, List.length_nil] at lengths
        omega
      have fraction : ((Nat.toDigits 10 d.digits).drop left).length = places := by
        rw [List.length_drop]
        omega
      have any : (Nat.toDigits 10 d.digits).drop left ≠ [] := by
        intro none
        rw [none, List.length_nil] at fraction
        omega
      have magnitude := MagnitudeText.positional
        (fun c member => digits c (List.mem_of_mem_take member)) whole
        (fun c member => digits c (List.mem_of_mem_drop member)) any
      rw [List.take_append_drop, Nat.ofDigitChars_ten_toDigits, fraction] at magnitude
      rw [if_pos fewer]
      exact magnitude
    · have fraction : (zeros (places - (Nat.toDigits 10 d.digits).length) ++
          Nat.toDigits 10 d.digits).length = places := by
        rw [List.length_append, zeros, List.length_replicate]
        omega
      have zero : Nat.ofDigitChars 10 (['0'] ++ (zeros (places - (Nat.toDigits 10 d.digits).length) ++
          Nat.toDigits 10 d.digits)) 0 = d.digits := by
        rw [Nat.ofDigitChars_append, Nat.ofDigitChars_append, zeros,
          Nat.ofDigitChars_replicate_zero]
        simp [Nat.ofDigitChars_cons, Nat.ofDigitChars_ten_toDigits]
      have magnitude := @MagnitudeText.positional ['0']
        (zeros (places - (Nat.toDigits 10 d.digits).length) ++ Nat.toDigits 10 d.digits)
        (by simp [Digits]) (by simp) ((digits_zeros _).append digits) (by simp [some])
      rw [zero, fraction] at magnitude
      rw [if_neg fewer]
      exact magnitude

theorem scientific_digits {d : Decimal} {c : Char} {fs : List Char}
    (digits : Nat.toDigits 10 d.digits = c :: fs) :
    scientific "" d = c :: ((if fs = [] then [] else '.' :: fs) ++
      'e' :: (if d.exponent + fs.length < 0 then '-' :: Nat.toDigits 10 (d.exponent + fs.length).natAbs
        else Nat.toDigits 10 (d.exponent + fs.length).toNat)) := by
  have power : d.exponent + (c :: fs).length - 1 = d.exponent + (fs.length : Nat) := by
    rw [List.length_cons]
    omega
  unfold scientific
  dsimp only
  rw [digits, power]
  cases fs <;> rfl

theorem scientific_magnitude (d : Decimal) : MagnitudeText (scientific "" d) d.toRat := by
  have digits : Digits (Nat.toDigits 10 d.digits) := digits_decimal d.digits
  have whole := @Nat.ofDigitChars_ten_toDigits d.digits
  cases isDigits : Nat.toDigits 10 d.digits with
  | nil => exact absurd isDigits Nat.toDigits_ne_nil
  | cons c fs =>
      rw [isDigits] at digits whole
      have value : d.toRat = (Nat.ofDigitChars 10 (c :: fs) 0 : ℚ) / 10 ^ fs.length *
          10 ^ (d.exponent + fs.length) := by
        rw [whole, toRat, zpow_add₀ (by norm_num), zpow_natCast]
        field_simp
      have digit : c.isDigit = true := digits c List.mem_cons_self
      have places : Digits fs := fun c member => digits c (List.mem_cons_of_mem _ member)
      rw [scientific_digits isDigits, value]
      generalize d.exponent + fs.length = power
      by_cases below : power < 0
      · have exponent : -((power.natAbs : Nat) : Int) = power := by omega
        have magnitude := MagnitudeText.scientific true digit places
          (digits_decimal power.natAbs) Nat.toDigits_ne_nil
        rw [Nat.ofDigitChars_ten_toDigits, if_pos rfl, if_pos rfl, exponent] at magnitude
        rw [if_pos below]
        exact magnitude
      · have exponent : ((power.toNat : Nat) : Int) = power := by omega
        have magnitude := MagnitudeText.scientific false digit places
          (digits_decimal power.toNat) Nat.toDigits_ne_nil
        rw [Nat.ofDigitChars_ten_toDigits, if_neg Bool.false_ne_true, if_neg Bool.false_ne_true,
          exponent] at magnitude
        rw [if_neg below]
        exact magnitude

end Decimal

/-! Written doubles -/

namespace Code

open Decimal (shortest rounding_unique shortest_contained)
open Binary64 (ofFloat ofFloat_inj normalized_ofFloat)

/-- The text of a double in a listing. -/
inductive DoubleText : Binary64 → List Char → Prop
  | nan : DoubleText .nan ['N', 'a', 'N']
  | infinite : DoubleText (.infinite false) ['i', 'n', 'f']
  | minusInfinite : DoubleText (.infinite true) ['-', 'i', 'n', 'f']
  | finite {sign body : List Char} {negative : Bool} {mantissa : Nat} {exponent : Int}
      (signed : sign = if negative then ['-'] else [])
      (magnitude : MagnitudeText body (shortest .up mantissa exponent).toRat) :
      DoubleText (.finite negative mantissa exponent) (sign ++ body)

theorem doubleText_write (x : Float) : DoubleText (ofFloat x) (floatLayout.write x).toList := by
  unfold Decimal.Layout.write
  cases ofFloat x with
  | nan => exact .nan
  | infinite negative =>
      cases negative
      · exact .infinite
      · exact .minusInfinite
  | finite negative mantissa exponent =>
      have text (body : List Char) : (if negative then '-' :: body else body) =
          (if negative then ['-'] else []) ++ body := by
        cases negative <;> rfl
      dsimp only
      rw [String.toList_ofList, text]
      apply DoubleText.finite rfl
      split
      · exact Decimal.positional_magnitude _
      · exact Decimal.scientific_magnitude _

section doubles

variable {d d' : Binary64} {text : List Char}

/-- No integer is written like a double. -/
theorem DoubleText.mark (written : DoubleText d text) :
    ∃ c ∈ text, c.isDigit = false ∧ c ≠ '-' := by
  cases written with
  | nan => exact ⟨'N', by decide, by decide, by decide⟩
  | infinite => exact ⟨'i', by decide, by decide, by decide⟩
  | minusInfinite => exact ⟨'i', by decide, by decide, by decide⟩
  | finite signed magnitude =>
      rcases magnitude.mark with point | power
      · exact ⟨'.', List.mem_append_right _ point, by decide, by decide⟩
      · exact ⟨'e', List.mem_append_right _ power, by decide, by decide⟩

/-- The text of a finite double begins with a digit, or with a minus and a digit. -/
theorem not_magnitude {sign body front rest : List Char} {c : Char} {negative : Bool} {x : ℚ}
    (signed : sign = if negative then ['-'] else []) (magnitude : MagnitudeText body x)
    (isFront : front = [] ∨ front = ['-']) (other : c.isDigit = false) (notMinus : c ≠ '-') :
    sign ++ body ≠ front ++ c :: rest := by
  obtain ⟨first, more, rfl, digit⟩ := magnitude.first
  have notFirst : first ≠ c := by
    rintro rfl
    rw [digit] at other
    cases other
  have firstNotMinus : first ≠ '-' := by
    rintro rfl
    cases digit
  subst signed
  rcases isFront with rfl | rfl <;> cases negative <;>
    simp [notFirst, firstNotMinus, notMinus.symm]

/-- A text is that of one double. -/
theorem DoubleText.unique (normalized : ∀ b m k, d = .finite b m k → Binary64.Normalized m k)
    (normalized' : ∀ b m k, d' = .finite b m k → Binary64.Normalized m k)
    (written : DoubleText d text) (written' : DoubleText d' text) : d = d' := by
  generalize same : text = text' at written'
  cases written with
  | nan =>
      cases written' with
      | nan => rfl
      | infinite | minusInfinite => cases same
      | finite signed magnitude =>
          exact absurd same.symm
            (not_magnitude signed magnitude (.inl rfl) (by decide) (by decide))
  | infinite =>
      cases written' with
      | infinite => rfl
      | nan | minusInfinite => cases same
      | finite signed magnitude =>
          exact absurd same.symm
            (not_magnitude signed magnitude (.inl rfl) (by decide) (by decide))
  | minusInfinite =>
      cases written' with
      | minusInfinite => rfl
      | nan | infinite => cases same
      | finite signed magnitude =>
          exact absurd same.symm
            (not_magnitude signed magnitude (.inr rfl) (by decide) (by decide))
  | @finite sign body negative mantissa exponent signed magnitude =>
      cases written' with
      | nan | infinite =>
          exact absurd same (not_magnitude signed magnitude (.inl rfl) (by decide) (by decide))
      | minusInfinite =>
          exact absurd same (not_magnitude signed magnitude (.inr rfl) (by decide) (by decide))
      | @finite sign' body' negative' mantissa' exponent' signed' magnitude' =>
          subst signed signed'
          have numeral := magnitude.numeral (minusText negative)
          rw [same] at numeral
          obtain ⟨rfl, values⟩ := numeral.unique (magnitude'.numeral (minusText negative'))
          have here := shortest_contained .up (normalized _ _ _ rfl)
          have there := shortest_contained .up (normalized' _ _ _ rfl)
          rw [values] at here
          obtain ⟨rfl, rfl⟩ :=
            rounding_unique (normalized _ _ _ rfl) (normalized' _ _ _ rfl) here there
          rfl

end doubles

theorem floatLayout_inj {x y : Float} (same : floatLayout.write x = floatLayout.write y) : x = y := by
  have written := doubleText_write x
  have written' := doubleText_write y
  rw [same] at written
  exact ofFloat_inj (written.unique (fun _ _ _ => normalized_ofFloat)
    (fun _ _ _ => normalized_ofFloat) written')

end Code
end TreeScript
