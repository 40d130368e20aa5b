import TreeScript.Store.Coercion

set_option autoImplicit false

/- Keys. The decimal text of a word is read as that word, so that no key made from a value or a text
is such a text. -/
namespace TreeScript

theorem digitsToNat_eq (digits : List Char) :
    digitsToNat digits = Nat.ofDigitChars 10 digits 0 := by
  rw [digitsToNat, Nat.ofDigitChars]
  congr 1
  funext n c
  rw [Nat.mul_comm]

theorem digitsToNat_toDigits (n : Nat) : digitsToNat (Nat.toDigits 10 n) = n := by
  rw [digitsToNat_eq, Nat.ofDigitChars_ten_toDigits]

theorem digits_toDigits (n : Nat) :
    (!(Nat.toDigits 10 n).isEmpty && (Nat.toDigits 10 n).all Char.isDigit) = true := by
  have allDigits : ∀ c ∈ Nat.toDigits 10 n, c.isDigit = true :=
    fun c member => Nat.isDigit_of_mem_toDigits (by omega) (by omega) member
  have nonempty : Nat.toDigits 10 n ≠ [] := Nat.toDigits_ne_nil
  simpa [nonempty] using allDigits

theorem decimalInteger_toDigits (n : Nat) :
    decimalInteger (Nat.toDigits 10 n) = some (n : Int) := by
  unfold decimalInteger
  split
  · next more isMinus =>
      have member : '-' ∈ Nat.toDigits 10 n := by simp [isMinus]
      cases Nat.isDigit_of_mem_toDigits (by omega) (by omega) member
  · rw [if_pos (digits_toDigits n), digitsToNat_toDigits]

theorem decimalInteger_negative (n : Nat) :
    decimalInteger ('-' :: Nat.toDigits 10 n) = some (-(n : Int)) := by
  rw [decimalInteger, if_pos (digits_toDigits n), digitsToNat_toDigits]

theorem toList_toString_natural (size : Nat) :
    (toString (Int.ofNat size)).toList = Nat.toDigits 10 size := by
  simp only [Int.toString_eq_repr, Int.repr, Nat.toList_repr]

theorem toList_toString_negative (size : Nat) :
    (toString (Int.negSucc size)).toList = '-' :: Nat.toDigits 10 (size + 1) := by
  simp only [Int.toString_eq_repr, Int.repr, String.toList_append, Nat.toList_repr]
  rfl

/-- The decimal text of an integer is read as that integer. -/
theorem decimalInteger_toString (n : Int) : decimalInteger (toString n).toList = some n := by
  cases n with
  | ofNat size =>
      rw [toList_toString_natural, decimalInteger_toDigits]
      rfl
  | negSucc size =>
      rw [toList_toString_negative, decimalInteger_negative]
      rfl

theorem fitWord_toInt (n : Int64) : fitWord n.toInt = some n := by
  have least : -2 ^ 63 ≤ n.toInt := n.le_toInt
  have greatest : n.toInt < 2 ^ 63 := n.toInt_lt
  rw [fitWord, if_pos ⟨by omega, by omega⟩, Int64.ofInt_toInt]

theorem fitWord_eq_some_iff {result : Int} {n : Int64} :
    fitWord result = some n ↔ n.toInt = result := by
  constructor
  · intro fits
    rw [fitWord] at fits
    split at fits
    · next range =>
        cases fits
        exact Int64.toInt_ofInt_of_le (by omega) (by omega)
    · cases fits
  · rintro rfl
    exact fitWord_toInt n

namespace Key

theorem text_ofText (name : String) : (ofText name).text = name := by
  unfold ofText
  split
  · split
    · next n _ same => exact eq_of_beq same
    · rfl
  · rfl

theorem ofText_decimal (n : Int64) : ofText (toString n.toInt) = .integer n := by
  rw [ofText, decimalInteger_toString, Option.bind_some, fitWord_toInt]
  simp

/-- A key that a value or a text stands for. -/
def Made (key : Key) : Prop := (∃ v, ofValue v = some key) ∨ ∃ text, ofText text = key

/-- No text that is the decimal form of a word stands in for it. -/
def Canonical : Key → Prop
  | .integer _ => True
  | .string s => ∀ n : Int64, s ≠ toString n.toInt

theorem canonical_ofText (text : String) : (ofText text).Canonical := by
  cases made : ofText text with
  | integer n => trivial
  | string s =>
      intro n decimal
      have same : s = text := by
        rw [ofText] at made
        split at made
        · split at made <;> cases made
          rfl
        · cases made
          rfl
      rw [← same, decimal, ofText_decimal] at made
      cases made

theorem canonical_ofValue {v : Value} {key : Key} (made : ofValue v = some key) :
    key.Canonical := by
  cases v with
  | null =>
      cases made
      intro n empty
      have read := ofText_decimal n
      have emptyText : ofText "" = .string "" := by decide
      rw [← empty, emptyText] at read
      cases read
  | string s =>
      cases made
      exact canonical_ofText s
  | boolean b | integer n | float x =>
      cases made
      trivial
  | array a | object o => cases made

theorem Made.canonical {key : Key} (made : key.Made) : key.Canonical := by
  rcases made with ⟨v, made⟩ | ⟨text, rfl⟩
  · exact canonical_ofValue made
  · exact canonical_ofText text

end Key
end TreeScript
