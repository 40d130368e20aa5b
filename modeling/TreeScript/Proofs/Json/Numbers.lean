import Mathlib.Data.List.TakeWhile
import Mathlib.Data.Nat.Digits.Defs
import TreeScript.Json.Reader
import TreeScript.Json.Writer

set_option autoImplicit false

/- Numbers as they are written are read as they were. For whole numbers that is proved here; for a
double it depends on its digits, and is a condition where doubles are written. -/
namespace TreeScript.JsonNumber

/-- What is written for the number is read as that number. -/
def ReadsBack (x : JsonNumber) : Prop := read (Json.writeNumber x).toList = some (x, [])

/-- A text that does not go on a number: it is at its end, or goes on with a comma or a closing
bracket. -/
def Stops (rest : List Char) : Prop := ∀ c ∈ rest.head?, c = ',' ∨ c = ']' ∨ c = '\x7d'

theorem Stops.head {c : Char} {rest : List Char} (stops : Stops (c :: rest)) :
    c = ',' ∨ c = ']' ∨ c = '\x7d' := stops c rfl

/-! What follows a number -/

section follows

variable {cs rest : List Char}

theorem takeDigits_append (stops : Stops rest) (cs : List Char) :
    takeDigits (cs ++ rest) = ((takeDigits cs).1, (takeDigits cs).2 ++ rest) := by
  induction cs with
  | nil =>
      cases rest with
      | nil => rfl
      | cons c more =>
          have other : c.isDigit = false := by
            rcases stops.head with rfl | rfl | rfl <;> decide
          simp [takeDigits, other]
  | cons c more ih =>
      simp only [takeDigits, Prod.mk.injEq, List.cons_append] at ih ⊢
      cases isDigit : c.isDigit with
      | true => simp [isDigit, ih.1, ih.2]
      | false => simp [isDigit]

theorem readWhole_of_ne {c : Char} {cs : List Char} (other : c ≠ '0') :
    readWhole (c :: cs) = match takeDigits (c :: cs) with
      | ([], _) => none
      | parts => some parts := by
  unfold readWhole
  split
  · next same => exact absurd (List.cons.inj same).1 other
  · rfl

theorem readWhole_append {whole left : List Char} (stops : Stops rest)
    (done : readWhole cs = some (whole, left)) :
    readWhole (cs ++ rest) = some (whole, left ++ rest) := by
  cases cs with
  | nil => simp [readWhole, takeDigits] at done
  | cons c more =>
      by_cases zero : c = '0'
      · subst zero
        simp only [readWhole, Option.some.injEq, Prod.mk.injEq, List.cons_append] at done ⊢
        exact ⟨done.1, done.2 ▸ rfl⟩
      · rw [readWhole_of_ne zero] at done
        rw [List.cons_append, readWhole_of_ne zero, ← List.cons_append, takeDigits_append stops]
        cases taken : takeDigits (c :: more) with
        | mk ds left' =>
            rw [taken] at done
            cases ds with
            | nil => cases done
            | cons d ds =>
                cases done
                rfl

theorem readFraction_append {fraction : Option (List Char)} {left : List Char}
    (stops : Stops rest) (done : readFraction cs = some (fraction, left)) :
    readFraction (cs ++ rest) = some (fraction, left ++ rest) := by
  have plain : ∀ {text : List Char}, text.head? ≠ some '.' →
      readFraction text = some (none, text) := by
    intro text other
    unfold readFraction
    split
    · exact absurd rfl other
    · rfl
  cases cs with
  | nil =>
      cases done
      apply plain
      intro point
      rcases stops '.' point with same | same | same <;> cases same
  | cons c more =>
      by_cases point : c = '.'
      · subst point
        simp only [readFraction, List.cons_append, takeDigits_append stops] at done ⊢
        cases taken : takeDigits more with
        | mk ds left' =>
            rw [taken] at done
            cases ds with
            | nil => cases done
            | cons d ds =>
                cases done
                rfl
      · have other : ∀ text, (c :: text).head? ≠ some '.' :=
          fun _ same => point (Option.some.inj same)
        rw [plain (other more)] at done
        cases done
        exact plain (other _)

/-- The sign of an exponent, and what follows it. -/
def exponentSign (cs : List Char) : Bool × List Char :=
  match cs with
  | '-' :: more => (true, more)
  | '+' :: more => (false, more)
  | _ => (false, cs)

theorem readExponent_mark {c : Char} (mark : c = 'e' ∨ c = 'E') (cs : List Char) :
    readExponent (c :: cs) = match takeDigits (exponentSign cs).2 with
      | ([], _) => none
      | (digits, rest) => some (some ((exponentSign cs).1, digits), rest) := by
  unfold readExponent
  dsimp only
  rw [if_pos mark]
  rfl

theorem exponentSign_append {c : Char} (cs rest : List Char) :
    exponentSign (c :: cs ++ rest) =
      ((exponentSign (c :: cs)).1, (exponentSign (c :: cs)).2 ++ rest) := by
  by_cases minus : c = '-'
  · subst minus
    rfl
  · by_cases plus : c = '+'
    · subst plus
      rfl
    · have plain : ∀ text, exponentSign (c :: text) = (false, c :: text) := by
        intro text
        unfold exponentSign
        split
        · next same => exact absurd (List.cons.inj same).1 minus
        · next same => exact absurd (List.cons.inj same).1 plus
        · rfl
      rw [List.cons_append, plain, plain]
      rfl

theorem readExponent_append {exponent : Option (Bool × List Char)} {left : List Char}
    (stops : Stops rest) (done : readExponent cs = some (exponent, left)) :
    readExponent (cs ++ rest) = some (exponent, left ++ rest) := by
  have plain : ∀ {c : Char} {text : List Char}, ¬ (c = 'e' ∨ c = 'E') →
      readExponent (c :: text) = some (none, c :: text) := by
    intro c text other
    unfold readExponent
    dsimp only
    rw [if_neg other]
  cases cs with
  | nil =>
      cases done
      cases rest with
      | nil => rfl
      | cons c more =>
          apply plain
          rcases stops.head with rfl | rfl | rfl <;> decide
  | cons c more =>
      by_cases mark : c = 'e' ∨ c = 'E'
      · rw [readExponent_mark mark] at done
        rw [List.cons_append, readExponent_mark mark]
        cases more with
        | nil => simp [exponentSign, takeDigits] at done
        | cons d more =>
            rw [exponentSign_append, takeDigits_append stops]
            cases taken : takeDigits (exponentSign (d :: more)).2 with
            | mk ds left' =>
                rw [taken] at done
                cases ds with
                | nil => cases done
                | cons d ds =>
                    cases done
                    rfl
      · rw [plain mark] at done
        cases done
        exact plain mark

/-- The sign of a numeral, and what follows it. -/
def numeralSign (cs : List Char) : Bool × List Char :=
  match cs with
  | '-' :: more => (true, more)
  | _ => (false, cs)

theorem readNumeral_eq (cs : List Char) :
    readNumeral cs = (readWhole (numeralSign cs).2).bind fun (whole, left) =>
      (readFraction left).bind fun (fraction, left) =>
        (readExponent left).bind fun (exponent, left) =>
          some (⟨(numeralSign cs).1, whole, fraction, exponent⟩, left) := rfl

theorem numeralSign_append {c : Char} (cs rest : List Char) :
    numeralSign (c :: cs ++ rest) =
      ((numeralSign (c :: cs)).1, (numeralSign (c :: cs)).2 ++ rest) := by
  by_cases minus : c = '-'
  · subst minus
    rfl
  · have plain : ∀ text, numeralSign (c :: text) = (false, c :: text) := by
      intro text
      unfold numeralSign
      split
      · next same => exact absurd (List.cons.inj same).1 minus
      · rfl
    rw [List.cons_append, plain, plain]
    rfl

/-- A number is read whatever follows it that does not go on it. -/
theorem read_append {x : JsonNumber} {left : List Char} (stops : Stops rest)
    (done : read cs = some (x, left)) : read (cs ++ rest) = some (x, left ++ rest) := by
  simp only [read, readNumeral_eq, Option.bind_eq_bind, Option.bind_eq_some_iff, Prod.exists,
    Option.some.injEq, Prod.mk.injEq] at done ⊢
  obtain ⟨numeral, left₀, ⟨whole, left₁, atWhole, fraction, left₂, atFraction, exponent, left₃,
    atExponent, rfl, rfl⟩, number, isNumber, rfl, rfl⟩ := done
  cases cs with
  | nil => simp [numeralSign, readWhole, takeDigits] at atWhole
  | cons c more =>
      rw [numeralSign_append]
      exact ⟨_, _, ⟨whole, _, readWhole_append stops atWhole, fraction, _,
        readFraction_append stops atFraction, exponent, _, readExponent_append stops atExponent,
        rfl, rfl⟩, number, isNumber, rfl, rfl⟩

/-- A number starts with a digit or a sign. -/
theorem head_of_read {x : JsonNumber} {left : List Char} (done : read cs = some (x, left)) :
    ∃ c more, cs = c :: more ∧ (c = '-' ∨ c.isDigit = true) := by
  simp only [read, readNumeral_eq, Option.bind_eq_bind, Option.bind_eq_some_iff, Prod.exists]
    at done
  obtain ⟨_, _, ⟨whole, left₁, atWhole, -⟩, -⟩ := done
  cases cs with
  | nil => simp [numeralSign, readWhole, takeDigits] at atWhole
  | cons c more =>
      refine ⟨c, more, rfl, ?_⟩
      by_contra neither
      obtain ⟨minus, notDigit⟩ := not_or.mp neither
      have plain : numeralSign (c :: more) = (false, c :: more) := by
        unfold numeralSign
        split
        · next same => exact absurd (List.cons.inj same).1 minus
        · rfl
      have zero : c ≠ '0' := by
        rintro rfl
        exact notDigit rfl
      rw [plain, readWhole_of_ne zero] at atWhole
      simp [takeDigits, notDigit] at atWhole

end follows

/-! Whole numbers -/

theorem ofDigitChars_ge (digits : List Char) (start : Nat) :
    start ≤ Nat.ofDigitChars 10 digits start := by
  induction digits generalizing start with
  | nil => exact Nat.le_refl _
  | cons c rest ih =>
      rw [Nat.ofDigitChars_cons]
      exact le_trans (by omega) (ih _)

/-- Digits are absorbed as long as their number fits a word. -/
theorem absorb_fits (digits : List Char) (significand : Nat)
    (fits : Nat.ofDigitChars 10 digits significand < 18446744073709551616) :
    absorb significand digits = (Nat.ofDigitChars 10 digits significand, []) := by
  induction digits generalizing significand with
  | nil => rfl
  | cons c rest ih =>
      rw [Nat.ofDigitChars_cons] at fits ⊢
      have next : significand * 10 + digitValue c = 10 * significand + (c.toNat - '0'.toNat) := by
        rw [digitValue, Nat.mul_comm]
      have room : significand * 10 + digitValue c < 18446744073709551616 := by
        rw [next]
        exact lt_of_le_of_lt (ofDigitChars_ge rest _) fits
      rw [absorb]
      simp only [if_pos room]
      rw [next]
      exact ih _ fits

/-- Only zero is written with a zero in front. -/
theorem head_toDigits {n : Nat} (positive : 0 < n) : (Nat.toDigits 10 n).head? ≠ some '0' := by
  induction n using Nat.strongRecOn with
  | _ n ih =>
      by_cases small : n < 10
      · rw [Nat.toDigits_of_lt_base small]
        have nonzero : ∀ d < 10, 0 < d → [Nat.digitChar d].head? ≠ some '0' := by decide
        exact nonzero n small positive
      · have shorter := ih (n / 10) (by omega) (by omega)
        rw [Nat.toDigits_of_base_le (by omega) (by omega)]
        cases digits : Nat.toDigits 10 (n / 10) with
        | nil => exact absurd digits Nat.toDigits_ne_nil
        | cons d ds =>
            rw [digits] at shorter
            exact shorter

theorem readWhole_toDigits (n : Nat) :
    readWhole (Nat.toDigits 10 n) = some (Nat.toDigits 10 n, []) := by
  rcases Nat.eq_zero_or_pos n with rfl | positive
  · rfl
  · have allDigits : ∀ c ∈ Nat.toDigits 10 n, c.isDigit = true :=
      fun c member => Nat.isDigit_of_mem_toDigits (by omega) (by omega) member
    have taken : takeDigits (Nat.toDigits 10 n) = (Nat.toDigits 10 n, []) := by
      simp only [takeDigits, List.takeWhile_eq_self_iff.mpr allDigits,
        List.dropWhile_eq_nil_iff.mpr allDigits]
    have first := head_toDigits positive
    cases digits : Nat.toDigits 10 n with
    | nil => exact absurd digits Nat.toDigits_ne_nil
    | cons d ds =>
        rw [digits] at first taken
        rw [readWhole_of_ne fun zero => first (congrArg some zero), taken]

theorem sign_toDigits (n : Nat) : numeralSign (Nat.toDigits 10 n) = (false, Nat.toDigits 10 n) := by
  unfold numeralSign
  split
  · next more isMinus =>
      have member : '-' ∈ Nat.toDigits 10 n := by simp [isMinus]
      cases Nat.isDigit_of_mem_toDigits (by omega) (by omega) member
  · rfl

theorem absorb_toDigits {n : Nat} (fits : n < 18446744073709551616) :
    absorb 0 (Nat.toDigits 10 n) = (n, []) := by
  rw [absorb_fits, Nat.ofDigitChars_ten_toDigits]
  rwa [Nat.ofDigitChars_ten_toDigits]

/-- A word is read as it is written. -/
theorem natural_readsBack (n : UInt64) : ReadsBack (.natural n) := by
  have digits : (Json.writeNumber (.natural n)).toList = Nat.toDigits 10 n.toNat := by
    simp only [Json.writeNumber, Nat.toString_eq_repr, Nat.toList_repr]
  rw [ReadsBack, digits, read, readNumeral_eq, sign_toDigits]
  simp [readWhole_toDigits, readFraction, readExponent, Numeral.toNumber,
    absorb_toDigits n.toNat_lt]

/-- A negative number is read as it is written. -/
theorem negative_readsBack {n : Int64} (negative : n < 0) : ReadsBack (.negative n) := by
  have below : n.toInt < 0 := Int64.lt_iff_toInt_lt.mp negative
  have least : -2 ^ 63 ≤ n.toInt := n.le_toInt
  obtain ⟨size, isSize⟩ : ∃ size : Nat, n.toInt = Int.negSucc size :=
    Int.eq_negSucc_of_lt_zero below
  have atMost : size + 1 ≤ 9223372036854775808 := by omega
  have digits : (Json.writeNumber (.negative n)).toList = '-' :: Nat.toDigits 10 (size + 1) := by
    simp only [Json.writeNumber, isSize, Int.toString_eq_repr, Int.repr, String.toList_append,
      Nat.toList_repr]
    rfl
  have sign : ∀ cs, numeralSign ('-' :: cs) = (true, cs) := fun _ => rfl
  have same : Int64.ofInt (-((size + 1 : Nat) : Int)) = n := by
    rw [show -((size + 1 : Nat) : Int) = n.toInt by omega, Int64.ofInt_toInt]
  rw [ReadsBack, digits, read, readNumeral_eq, sign]
  simp only [readWhole_toDigits, readFraction, readExponent, Numeral.toNumber,
    absorb_toDigits (show size + 1 < 18446744073709551616 by omega), Option.bind_some,
    Option.bind_eq_bind]
  rw [if_neg (by decide), if_pos ⟨Nat.succ_pos size, atMost⟩, same]
  rfl

end TreeScript.JsonNumber
