import TreeScript.Proofs.Arrays
import TreeScript.Proofs.Json.Numbers
import TreeScript.Store.Snapshot

set_option autoImplicit false

/- Keys and their texts. A text is an integer key exactly if it is spelled as the decimal of a word,
and a key is made again from its text and from its value; so no two keys of an array share a text,
and texts can stand for the keys. -/
namespace TreeScript

/-! Decimals -/

/-- Canonical decimals: zero, or digits of which the first is not zero, after a minus sign where the
number is negative. -/
inductive CanonicalDecimal : List Char → Prop
  | zero : CanonicalDecimal ['0']
  | positive {c : Char} {rest : List Char} (nonzero : c ≠ '0')
      (digits : ∀ d ∈ c :: rest, d.isDigit = true) : CanonicalDecimal (c :: rest)
  | negative {c : Char} {rest : List Char} (nonzero : c ≠ '0')
      (digits : ∀ d ∈ c :: rest, d.isDigit = true) : CanonicalDecimal ('-' :: c :: rest)

theorem digit_bounds {c : Char} (digit : c.isDigit = true) : 48 ≤ c.toNat ∧ c.toNat ≤ 57 :=
  Char.isDigit_iff_toNat.mp digit

theorem digitChar_of_digit {c : Char} (digit : c.isDigit = true) :
    Nat.digitChar (c.toNat - 48) = c := by
  obtain ⟨low, high⟩ := digit_bounds digit
  have each : ∀ n < 10, Nat.digitChar n = Char.ofNat (48 + n) := by decide
  rw [each _ (by omega), show 48 + (c.toNat - 48) = c.toNat by omega, Char.ofNat_toNat]

/-- Further digits are those that follow in the number. -/
theorem toDigits_ofDigitChars (digits : List Char) {n : Nat} (positive : 0 < n)
    (all : ∀ d ∈ digits, d.isDigit = true) :
    Nat.toDigits 10 (Nat.ofDigitChars 10 digits n) = Nat.toDigits 10 n ++ digits := by
  induction digits generalizing n with
  | nil => rw [Nat.ofDigitChars_nil, List.append_nil]
  | cons c rest ih =>
      obtain ⟨digit, others⟩ := List.forall_mem_cons.mp all
      obtain ⟨low, high⟩ := digit_bounds digit
      have zero : '0'.toNat = 48 := rfl
      have last : Nat.toDigits 10 (c.toNat - 48) = [c] := by
        rw [Nat.toDigits_of_lt_base (by omega), digitChar_of_digit digit]
      rw [Nat.ofDigitChars_cons, zero, ih (by omega) others,
        ← Nat.toDigits_append_toDigits (by omega) positive (by omega), last, List.append_assoc]
      rfl

/-- Digits without a zero in front are those of their number. -/
theorem toDigits_digitsToNat {c : Char} (rest : List Char) (nonzero : c ≠ '0')
    (digits : ∀ d ∈ c :: rest, d.isDigit = true) :
    Nat.toDigits 10 (digitsToNat (c :: rest)) = c :: rest := by
  obtain ⟨digit, others⟩ := List.forall_mem_cons.mp digits
  obtain ⟨low, high⟩ := digit_bounds digit
  have zero : '0'.toNat = 48 := rfl
  have first : c.toNat ≠ 48 := fun same => nonzero (by rw [← Char.ofNat_toNat c, same])
  rw [digitsToNat_eq, Nat.ofDigitChars_cons, zero, toDigits_ofDigitChars rest (by omega) others,
    Nat.toDigits_of_lt_base (by omega), Nat.mul_zero, Nat.zero_add, digitChar_of_digit digit]
  rfl

theorem digitsToNat_pos {c : Char} {rest : List Char} (nonzero : c ≠ '0')
    (digits : ∀ d ∈ c :: rest, d.isDigit = true) : 0 < digitsToNat (c :: rest) := by
  by_contra none
  have isZero : digitsToNat (c :: rest) = 0 := by omega
  have written := toDigits_digitsToNat rest nonzero digits
  rw [isZero, Nat.toDigits_zero] at written
  exact nonzero (List.cons.inj written).1.symm

theorem toDigits_canonical {n : Nat} (positive : 0 < n) :
    ∃ c rest, Nat.toDigits 10 n = c :: rest ∧ c ≠ '0' ∧ ∀ d ∈ c :: rest, d.isDigit = true := by
  have digits : ∀ d ∈ Nat.toDigits 10 n, d.isDigit = true :=
    fun d member => Nat.isDigit_of_mem_toDigits (by omega) (by omega) member
  have first := JsonNumber.head_toDigits positive
  cases written : Nat.toDigits 10 n with
  | nil => exact absurd written Nat.toDigits_ne_nil
  | cons c rest =>
      rw [written] at digits first
      exact ⟨c, rest, rfl, fun isZero => first (by rw [isZero]; rfl), digits⟩

/-- The canonical decimals are the texts of the integers. -/
theorem canonicalDecimal_iff (text : String) :
    CanonicalDecimal text.toList ↔ ∃ n : Int, text = toString n := by
  constructor
  · intro canonical
    have spelled : ∃ n : Int, text.toList = (toString n).toList := by
      generalize text.toList = cs at canonical
      cases canonical with
      | zero => exact ⟨0, by decide⟩
      | @positive c rest nonzero digits =>
          refine ⟨Int.ofNat (digitsToNat (c :: rest)), ?_⟩
          rw [toList_toString_natural, toDigits_digitsToNat rest nonzero digits]
      | @negative c rest nonzero digits =>
          have positive := digitsToNat_pos nonzero digits
          obtain ⟨size, isSize⟩ : ∃ size, digitsToNat (c :: rest) = size + 1 :=
            ⟨digitsToNat (c :: rest) - 1, by omega⟩
          refine ⟨Int.negSucc size, ?_⟩
          rw [toList_toString_negative, ← isSize, toDigits_digitsToNat rest nonzero digits]
    obtain ⟨n, same⟩ := spelled
    exact ⟨n, String.toList_inj.mp same⟩
  · rintro ⟨n, rfl⟩
    cases n with
    | ofNat size =>
        rw [toList_toString_natural]
        by_cases isZero : size = 0
        · rw [isZero]
          exact .zero
        · obtain ⟨c, rest, written, nonzero, digits⟩ := toDigits_canonical (Nat.pos_of_ne_zero isZero)
          rw [written]
          exact .positive nonzero digits
    | negSucc size =>
        obtain ⟨c, rest, written, nonzero, digits⟩ := toDigits_canonical (Nat.succ_pos size)
        rw [toList_toString_negative, written]
        exact .negative nonzero digits

namespace Key

theorem ofText_cases (text : String) :
    (∃ n : Int64, text = toString n.toInt ∧ ofText text = .integer n) ∨
      ofText text = .string text := by
  cases made : ofText text with
  | integer n =>
      have same := text_ofText text
      rw [made] at same
      exact .inl ⟨n, same.symm, rfl⟩
  | string s =>
      have same := text_ofText text
      rw [made] at same
      exact .inr (by rw [← same]; rfl)

/-- A text is an integer as a key exactly if it is the canonical decimal of that word. -/
theorem ofText_eq_integer_iff {text : String} {n : Int64} :
    ofText text = .integer n ↔
      CanonicalDecimal text.toList ∧ decimalInteger text.toList = some n.toInt := by
  constructor
  · intro made
    have same : toString n.toInt = text := by
      have kept := text_ofText text
      rwa [made] at kept
    rw [← same]
    exact ⟨(canonicalDecimal_iff _).mpr ⟨_, rfl⟩, decimalInteger_toString n.toInt⟩
  · rintro ⟨canonical, value⟩
    obtain ⟨k, rfl⟩ := (canonicalDecimal_iff text).mp canonical
    rw [decimalInteger_toString] at value
    obtain rfl : k = n.toInt := Option.some.inj value
    exact ofText_decimal n

/-- A key of a value is the key of its own value. -/
theorem ofValue_toValue {v : Value} {key : Key} (made : ofValue v = some key) :
    ofValue key.toValue = some key := by
  have canonical := canonical_ofValue made
  cases key with
  | integer n => rfl
  | string s =>
      rcases ofText_cases s with ⟨n, same, -⟩ | kept
      · exact absurd same (canonical n)
      · rw [toValue, ofValue, kept]

/-- Canonical keys of one text are the same key. -/
theorem text_injective {key key' : Key} (canonical : key.Canonical) (canonical' : key'.Canonical)
    (same : key.text = key'.text) : key = key' := by
  cases key with
  | integer n =>
      cases key' with
      | integer n' =>
          have integers : some n.toInt = some n'.toInt := by
            rw [← decimalInteger_toString, ← decimalInteger_toString, show toString n.toInt = _ from same]
            rfl
          rw [Int64.toInt_inj.mp (Option.some.inj integers)]
      | string s' => exact absurd same.symm (canonical' n)
  | string s =>
      cases key' with
      | integer n' => exact absurd same (canonical n')
      | string s' => rw [show s = s' from same]

end Key
end TreeScript
