import TreeScript.Proofs.Arithmetic
import TreeScript.Proofs.Floats
import TreeScript.Proofs.Increments.Bytes

set_option autoImplicit false

/- Increments and decrements. Numbers and texts that are numbers change as in sums and differences;
any other text is followed by its successor. -/
namespace TreeScript

/-! Numbers -/

/-- Integers, floats, and texts that are numbers as a whole. -/
inductive Value.Numeric : Value → Prop
  | integer (n : Int64) : Numeric (.integer n)
  | float (x : Float) : Numeric (.float x)
  | text {s : String} {number : Number} (reads : numericText s = some number) :
      Numeric (.string s)

variable {m : Machine} {v w : Value}

theorem gives_add (left : v.isCompound = false) (right : w.isCompound = false) :
    m.Gives .add v w ((m.store.toNumber v).add (m.store.toNumber w)).toValue := by
  intro held
  have noUnion : ∀ a b, v = .array a → w ≠ .array b := by
    rintro a b rfl
    cases left
  rw [applyBinary_add held noUnion, run_arithmetic_scalars .add _ left right]

theorem gives_subtract (left : v.isCompound = false) (right : w.isCompound = false) :
    m.Gives .subtract v w ((m.store.toNumber v).subtract (m.store.toNumber w)).toValue := by
  intro held
  show (arithmetic .subtract (fun m n => some (m.subtract n)) v w).run m = _
  rw [run_arithmetic_scalars .subtract _ left right]

theorem wordToFloat_one : wordToFloat 1 = 1.0 := by decide +kernel

theorem Number.add_comm (a b : Number) : a.add b = b.add a := by
  cases a with
  | integer x =>
      cases b with
      | integer y => rw [add, add, Int.add_comm, float_add_comm]
      | float y => exact congrArg Number.float (float_add_comm _ _)
  | float x => cases b <;> exact congrArg Number.float (float_add_comm _ _)

theorem toNumber_numericText {st : Store} {s : String} {number : Number}
    (reads : numericText s = some number) : st.toNumber (.string s) = number := by
  rw [numericText] at reads
  split at reads
  · next leading =>
      cases reads
      rw [Store.toNumber, leading]
  · cases reads

theorem numeric_nonempty {s : String} {number : Number} (reads : numericText s = some number) :
    (s == "") = false := by
  by_contra empty
  have none : numericText "" = none := Option.isNone_iff_eq_none.mp (by decide +kernel)
  rw [Bool.not_eq_false, beq_iff_eq] at empty
  rw [empty, none] at reads
  cases reads

/-- The step of an integer is a sum with one, also where it leaves the words. -/
theorem increment_integer (n : Int64) :
    (Value.integer n).increment = ((Number.integer n).add (.integer 1)).toValue := by
  rw [Value.increment, Number.add, Number.exact, wordToFloat_one, Int64.toInt_one]
  cases fitWord (n.toInt + 1) <;> rfl

theorem decrement_integer (n : Int64) :
    (Value.integer n).decrement = ((Number.integer n).subtract (.integer 1)).toValue := by
  rw [Value.decrement, Number.subtract, Number.exact, wordToFloat_one, Int64.toInt_one]
  cases fitWord (n.toInt - 1) <;> rfl

theorem increment_numeric (numeric : v.Numeric) (m : Machine) :
    m.Gives .add v (.integer 1) v.increment ∧ m.Gives .subtract v (.integer 1) v.decrement := by
  cases numeric with
  | integer n =>
      rw [increment_integer, decrement_integer]
      exact ⟨gives_add rfl rfl, gives_subtract rfl rfl⟩
  | float x =>
      have sum := gives_add (m := m) (v := .float x) (w := .integer 1) rfl rfl
      have difference := gives_subtract (m := m) (v := .float x) (w := .integer 1) rfl rfl
      simp only [Store.toNumber, Number.add, Number.subtract, Number.toFloat, wordToFloat_one,
        Number.toValue] at sum difference
      exact ⟨sum, difference⟩
  | @text s number reads =>
      have sum := gives_add (m := m) (v := .string s) (w := .integer 1) rfl rfl
      have difference := gives_subtract (m := m) (v := .string s) (w := .integer 1) rfl rfl
      rw [toNumber_numericText reads] at sum difference
      rw [Value.increment, Value.decrement, numeric_nonempty reads, reads]
      exact ⟨by rw [Number.add_comm] at sum; exact sum, difference⟩

/-! Texts that are no numbers -/

theorem increment_text {text : String} (nonempty : text ≠ "")
    (noNumber : ¬ (Value.string text).Numeric) :
    (Value.string text).increment = .string (successorText text) := by
  have none : numericText text = none := by
    cases reads : numericText text with
    | none => rfl
    | some number => exact absurd (.text reads) noNumber
  have some : (text == "") = false := by simpa using nonempty
  rw [Value.increment, some, none]
  rfl

theorem successorText_unchanged {text : String} {front : List Char}
    (cuts : CutsEnd text.toList front []) : successorText text = text := by
  obtain ⟨next, succeeds, isSuccessor⟩ := successorText_eq cuts
  have empty : next = [] := List.map_eq_nil_iff.mp succeeds.classes
  rw [isSuccessor, empty, carriedText, List.nil_append, ← cuts.parts, String.ofList_toList]

/-- A number, or a text that is one, changes by an increment or decrement as in a sum or difference
with one. In any other text an increment changes only the end of letters and digits: it becomes the
next numeral on the same classes, and only where such a numeral makes up the whole text is anything
put in front. The bytes of the result are those that a loop over the bytes of the text leaves. -/
theorem increment_decrement :
    (∀ v : Value, v.Numeric → ∀ m : Machine,
      m.Gives .add v (.integer 1) v.increment ∧
        m.Gives .subtract v (.integer 1) v.decrement) ∧
      ∀ text : String, text ≠ "" → ¬ (Value.string text).Numeric →
        ∃ front back next result, CutsEnd text.toList front back ∧ Succeeds back next ∧
          (Value.string text).increment = .string result ∧
          result.toList = carriedText front back next ++ (front ++ next) ∧
          (back = [] → result = text) ∧
          successorBytes text.toByteArray.data.toList = result.toByteArray.data.toList := by
  refine ⟨fun v numeric m => increment_numeric numeric m, fun text nonempty noNumber => ?_⟩
  obtain ⟨front, back, cuts⟩ := exists_cutsEnd text.toList
  obtain ⟨next, succeeds, isSuccessor⟩ := successorText_eq cuts
  refine ⟨front, back, next, successorText text, cuts, succeeds,
    increment_text nonempty noNumber, ?_, ?_, successorBytes_toByteArray text⟩
  · rw [isSuccessor, String.toList_ofList]
  · rintro rfl
    exact successorText_unchanged cuts

example : (Value.string "é-Zz").increment = .string "é-Aa" := by cbv

example : (Value.string "Zz9").increment = .string "AAa0" := by cbv

theorem increment_decrement_texts :
    (∀ m : Machine, m.Gives .subtract (.string " 5") (.integer 1) (.integer 4)) ∧
      ∃ front back next result, CutsEnd "zz".toList front back ∧ Succeeds back next ∧
        (Value.string "zz").increment = .string result := by
  have reads : numericText " 5" = some (.integer 5) := by
    have digits : " 5".toList.dropWhile Text.isBlank = ['5'] := by decide +kernel
    have fits : fitWord (digitsToNat ['5']) = some 5 := by decide +kernel
    have five : (⟨false, ['5'], none, none⟩ : Numeral).toNumber = .integer 5 := by
      simp only [Numeral.toNumber, Bool.false_eq_true, if_false, fits]
    rw [numericText, leadingNumber, digits]
    exact congrArg some five
  have four : (Value.string " 5").decrement = .integer 4 := by
    rw [Value.decrement, numeric_nonempty reads, reads]
    rfl
  have noNumber : ¬ (Value.string "zz").Numeric := by
    have none : numericText "zz" = none := Option.isNone_iff_eq_none.mp (by decide +kernel)
    intro numeric
    cases numeric with
    | text reads =>
        rw [none] at reads
        cases reads
  constructor
  · intro m
    rw [← four]
    exact (increment_decrement.1 _ (.text reads) m).2
  · obtain ⟨front, back, next, result, cuts, succeeds, isResult, -⟩ :=
      increment_decrement.2 "zz" (by simp) noNumber
    exact ⟨front, back, next, result, cuts, succeeds, isResult⟩

end TreeScript
