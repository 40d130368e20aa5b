import Mathlib.Algebra.BigOperators.Group.List.Basic
import Mathlib.Data.List.DropRight
import TreeScript.Value.Numeral

set_option autoImplicit false

/- The successor of a text. Its end counts as a numeral whose letters and digits each have a class
of their own, and a carry goes through it from right to left. -/
namespace TreeScript

/-! Letters and digits as digits of a numeral -/

/-- The characters among which a letter or digit counts. -/
inductive CharClass where
  | digit
  | lower
  | upper
  deriving DecidableEq

namespace CharClass

def of (c : Char) : CharClass := if c.isDigit then digit else if c.isLower then lower else upper

def first : CharClass → Char
  | digit => '0'
  | lower => 'a'
  | upper => 'A'

def size : CharClass → Nat
  | digit => 10
  | lower | upper => 26

def char (k : CharClass) (i : Nat) : Char := .ofNat (k.first.toNat + i)

/-- What is put in front of a numeral that has become too long, by the class in front. -/
def carried : CharClass → Char
  | digit => '1'
  | lower => 'a'
  | upper => 'A'

theorem size_pos (k : CharClass) : 0 < k.size := by cases k <;> decide

end CharClass

/-- The place of a letter or digit in its class. -/
def place (c : Char) : Nat := c.toNat - (CharClass.of c).first.toNat

/-- The number that letters and digits denote, each a digit of its own base. -/
def counted (cs : List Char) : Nat :=
  cs.foldl (fun n c => n * (CharClass.of c).size + place c) 0

/-- How many numbers there are on the same classes. -/
def capacity (cs : List Char) : Nat := (cs.map fun c => (CharClass.of c).size).prod

def Alphanumeric (cs : List Char) : Prop := ∀ c ∈ cs, c.isAlphanum = true

/-- The next numeral on the same classes, the first one after the last. -/
structure Succeeds (cs next : List Char) : Prop where
  alphanumeric : Alphanumeric next
  classes : next.map CharClass.of = cs.map CharClass.of
  number : counted next = (counted cs + 1) % capacity cs

/-- A text cut in front of its longest end of letters and digits. -/
structure CutsEnd (cs front back : List Char) : Prop where
  parts : cs = front ++ back
  alphanumeric : Alphanumeric back
  longest : ∀ c ∈ front.getLast?, c.isAlphanum = false

theorem char_spec (k : CharClass) {i : Nat} (inside : i < k.size) :
    (k.char i).isAlphanum = true ∧ CharClass.of (k.char i) = k ∧ place (k.char i) = i := by
  revert i
  cases k <;> decide

theorem isAlphanum_iff {c : Char} :
    c.isAlphanum = true ↔ (48 ≤ c.toNat ∧ c.toNat ≤ 57) ∨ (65 ≤ c.toNat ∧ c.toNat ≤ 90) ∨
      (97 ≤ c.toNat ∧ c.toNat ≤ 122) := by
  have upper : c.isUpper = true ↔ 65 ≤ c.toNat ∧ c.toNat ≤ 90 := decide_eq_true_iff
  have lower : c.isLower = true ↔ 97 ≤ c.toNat ∧ c.toNat ≤ 122 :=
    Bool.and_eq_true_iff.trans (and_congr decide_eq_true_iff decide_eq_true_iff)
  have digit : c.isDigit = true ↔ 48 ≤ c.toNat ∧ c.toNat ≤ 57 := Char.isDigit_iff_toNat
  change ((c.isUpper || c.isLower) || c.isDigit) = true ↔ _
  rw [Bool.or_eq_true, Bool.or_eq_true, upper, lower, digit]
  omega

theorem exists_char {c : Char} (alphanumeric : c.isAlphanum = true) :
    ∃ k : CharClass, ∃ i < k.size, c = k.char i := by
  have inClass (k : CharClass) (low : k.first.toNat ≤ c.toNat)
      (high : c.toNat < k.first.toNat + k.size) : ∃ k : CharClass, ∃ i < k.size, c = k.char i := by
    refine ⟨k, c.toNat - k.first.toNat, by omega, ?_⟩
    rw [CharClass.char, Nat.add_sub_cancel' low, Char.ofNat_toNat]
  rcases isAlphanum_iff.mp alphanumeric with ⟨low, high⟩ | ⟨low, high⟩ | ⟨low, high⟩
  · exact inClass .digit low (Nat.lt_succ_of_le high)
  · exact inClass .upper low (Nat.lt_succ_of_le high)
  · exact inClass .lower low (Nat.lt_succ_of_le high)

/-! One character -/

theorem stepReversed_char (k : CharClass) {i : Nat} (inside : i < k.size) (rest : List Char) :
    stepReversed (k.char i :: rest) =
      if i + 1 = k.size then (k.first :: (stepReversed rest).1, (stepReversed rest).2)
      else (k.char (i + 1) :: rest, false) := by
  by_cases last : i + 1 = k.size
  · obtain rfl : i = k.size - 1 := by omega
    rw [if_pos last]
    cases k <;> rfl
  · have next : k.char i ≠ 'z' ∧ k.char i ≠ 'Z' ∧ k.char i ≠ '9' ∧
        Char.ofNat ((k.char i).toNat + 1) = k.char (i + 1) := by
      revert i
      cases k <;> decide
    obtain ⟨notLower, notUpper, notDigit, isNext⟩ := next
    rw [if_neg last, stepReversed, if_neg notLower, if_neg notUpper, if_neg notDigit,
      if_pos (char_spec k inside).1, isNext]

theorem stepReversed_other {c : Char} (other : c.isAlphanum = false) (rest : List Char) :
    stepReversed (c :: rest) = (c :: rest, false) := by
  have notLower : c ≠ 'z' := by
    rintro rfl
    cases other
  have notUpper : c ≠ 'Z' := by
    rintro rfl
    cases other
  have notDigit : c ≠ '9' := by
    rintro rfl
    cases other
  rw [stepReversed, if_neg notLower, if_neg notUpper, if_neg notDigit, if_neg (by simp [other])]

/-! All characters -/

variable {cs next : List Char}

theorem counted_concat (cs : List Char) (c : Char) :
    counted (cs ++ [c]) = counted cs * (CharClass.of c).size + place c := by
  simp [counted]

theorem capacity_concat (cs : List Char) (c : Char) :
    capacity (cs ++ [c]) = capacity cs * (CharClass.of c).size := by
  simp [capacity]

theorem counted_concat_char (cs : List Char) (k : CharClass) {i : Nat} (inside : i < k.size) :
    counted (cs ++ [k.char i]) = counted cs * k.size + i := by
  obtain ⟨-, isClass, isPlace⟩ := char_spec k inside
  rw [counted_concat, isClass, isPlace]

theorem capacity_concat_char (cs : List Char) (k : CharClass) {i : Nat} (inside : i < k.size) :
    capacity (cs ++ [k.char i]) = capacity cs * k.size := by
  rw [capacity_concat, (char_spec k inside).2.1]

theorem Alphanumeric.of_concat {c : Char} (all : Alphanumeric (cs ++ [c])) :
    Alphanumeric cs ∧ c.isAlphanum = true :=
  ⟨fun d member => all d (List.mem_append_left _ member), all c (by simp)⟩

theorem Alphanumeric.concat_char (all : Alphanumeric cs) (k : CharClass) {i : Nat}
    (inside : i < k.size) : Alphanumeric (cs ++ [k.char i]) := by
  intro c member
  rcases List.mem_append.mp member with inFront | isLast
  · exact all c inFront
  · rw [List.mem_singleton.mp isLast]
    exact (char_spec k inside).1

theorem map_of_concat_char (cs : List Char) (k : CharClass) {i : Nat} (inside : i < k.size) :
    (cs ++ [k.char i]).map CharClass.of = cs.map CharClass.of ++ [k] := by
  rw [List.map_append, List.map_singleton, (char_spec k inside).2.1]

theorem counted_lt_capacity (all : Alphanumeric cs) : counted cs < capacity cs := by
  induction cs using List.reverseRecOn with
  | nil => decide
  | append_singleton cs c ih =>
      obtain ⟨front, last⟩ := all.of_concat
      obtain ⟨k, i, inside, rfl⟩ := exists_char last
      have below : (counted cs + 1) * k.size ≤ capacity cs * k.size :=
        Nat.mul_le_mul_right _ (ih front)
      rw [counted_concat_char cs k inside, capacity_concat_char cs k inside]
      rw [Nat.succ_mul] at below
      omega

/-- A step counts letters and digits up to where they end, and carries out of them after the last
numeral. -/
theorem stepReversed_run (all : Alphanumeric cs) {stop : List Char}
    (stops : stepReversed stop = (stop, stop.isEmpty)) :
    ∃ next, Succeeds cs next ∧
      stepReversed (cs.reverse ++ stop) =
        (next.reverse ++ stop, decide (counted cs + 1 = capacity cs) && stop.isEmpty) := by
  induction cs using List.reverseRecOn with
  | nil => exact ⟨[], ⟨by simp [Alphanumeric], rfl, rfl⟩, stops⟩
  | append_singleton cs c ih =>
      obtain ⟨front, last⟩ := all.of_concat
      obtain ⟨k, i, inside, rfl⟩ := exists_char last
      have bound : counted cs < capacity cs := counted_lt_capacity front
      rw [List.reverse_concat, List.cons_append, stepReversed_char k inside,
        counted_concat_char cs k inside, capacity_concat_char cs k inside]
      by_cases carries : i + 1 = k.size
      · -- the first character of the class stands here, and what is in front counts on
        obtain ⟨next, succeeds, run⟩ := ih front
        have isNext : counted cs * k.size + i + 1 = (counted cs + 1) * k.size := by
          rw [Nat.succ_mul]
          omega
        have first : k.char 0 = k.first := by cases k <;> rfl
        refine ⟨next ++ [k.char 0], ⟨succeeds.alphanumeric.concat_char k k.size_pos, ?_, ?_⟩, ?_⟩
        · rw [map_of_concat_char next k k.size_pos, map_of_concat_char cs k inside,
            succeeds.classes]
        · rw [counted_concat_char next k k.size_pos, counted_concat_char cs k inside,
            capacity_concat_char cs k inside, succeeds.number, isNext, Nat.mul_mod_mul_right,
            Nat.add_zero]
        · rw [if_pos carries, run, isNext, List.reverse_concat, first]
          simp only [Nat.mul_left_inj k.size_pos.ne', List.cons_append]
      · -- the next character of the class stands here, and the number is below the last one
        have above : i + 1 < k.size := by omega
        have isNext : counted cs * k.size + i + 1 < capacity cs * k.size := by
          have below : (counted cs + 1) * k.size ≤ capacity cs * k.size :=
            Nat.mul_le_mul_right _ bound
          rw [Nat.succ_mul] at below
          omega
        refine ⟨cs ++ [k.char (i + 1)], ⟨front.concat_char k above, ?_, ?_⟩, ?_⟩
        · rw [map_of_concat_char cs k above, map_of_concat_char cs k inside]
        · rw [counted_concat_char cs k above, counted_concat_char cs k inside,
            capacity_concat_char cs k inside, Nat.mod_eq_of_lt isNext, Nat.add_assoc]
        · rw [if_neg carries, List.reverse_concat, decide_eq_false (by omega), Bool.false_and]
          rfl

/-! The successor of a text -/

/-- What is put in front of the successor of a text: after the last numeral that makes up a whole
text, a character of the class in front. -/
def carriedText (front back : List Char) : List Char → List Char
  | c :: _ =>
      if front = [] ∧ counted back + 1 = capacity back then [(CharClass.of c).carried] else []
  | [] => []

theorem place_of_counted (zero : counted cs = 0) : ∀ c ∈ cs, place c = 0 := by
  induction cs using List.reverseRecOn with
  | nil => simp
  | append_singleton cs d ih =>
      have positive : 0 < (CharClass.of d).size := CharClass.size_pos _
      rw [counted_concat] at zero
      have front : counted cs = 0 := by
        have product : counted cs * (CharClass.of d).size = 0 := by omega
        rcases Nat.mul_eq_zero.mp product with none | none
        · exact none
        · omega
      intro c member
      rcases List.mem_append.mp member with inFront | isLast
      · exact ih front c inFront
      · rw [List.mem_singleton.mp isLast]
        omega

theorem eq_first_of_place {c : Char} (alphanumeric : c.isAlphanum = true) (zero : place c = 0) :
    c = (CharClass.of c).first := by
  obtain ⟨k, i, inside, rfl⟩ := exists_char alphanumeric
  obtain ⟨-, isClass, isPlace⟩ := char_spec k inside
  rw [isPlace] at zero
  rw [isClass, zero]
  cases k <;> rfl

theorem stepReversed_stop {front : List Char} (ends : ∀ c ∈ front.getLast?, c.isAlphanum = false) :
    stepReversed front.reverse = (front.reverse, front.reverse.isEmpty) := by
  rcases List.eq_nil_or_concat front with rfl | ⟨more, c, rfl⟩
  · rfl
  · have other : c.isAlphanum = false := ends c (by simp)
    rw [List.concat_eq_append, List.reverse_concat, stepReversed_other other]
    rfl

theorem successorText_eq {text : String} {front back : List Char}
    (cuts : CutsEnd text.toList front back) :
    ∃ next, Succeeds back next ∧
      successorText text = String.ofList (carriedText front back next ++ (front ++ next)) := by
  obtain ⟨next, succeeds, run⟩ :=
    stepReversed_run cuts.alphanumeric (stepReversed_stop cuts.longest)
  refine ⟨next, succeeds, ?_⟩
  rw [successorText, cuts.parts, List.reverse_append, run]
  simp only [List.reverse_append, List.reverse_reverse, List.isEmpty_reverse]
  by_cases last : front = [] ∧ counted back + 1 = capacity back
  · obtain ⟨rfl, overflows⟩ := last
    rw [decide_eq_true overflows, List.nil_append]
    cases next with
    | nil => rfl
    | cons c more =>
        have zero : counted (c :: more) = 0 := by
          rw [succeeds.number, overflows, Nat.mod_self]
        have isFirst : c = (CharClass.of c).first :=
          eq_first_of_place (succeeds.alphanumeric c List.mem_cons_self)
            (place_of_counted zero c List.mem_cons_self)
        rw [carriedText, if_pos ⟨rfl, overflows⟩]
        cases isClass : CharClass.of c <;> rw [isClass] at isFirst <;> rw [isFirst] <;> rfl
  · have noCarry : (decide (counted back + 1 = capacity back) && front.isEmpty) = false := by
      simpa [imp_not_comm] using last
    have nothing : carriedText front back next = [] := by
      cases next with
      | nil => rfl
      | cons c more => exact if_neg last
    rw [noCarry, nothing]
    rfl

theorem exists_cutsEnd (cs : List Char) : ∃ front back, CutsEnd cs front back := by
  refine ⟨cs.rdropWhile Char.isAlphanum, cs.rtakeWhile Char.isAlphanum, ⟨?_, ?_, ?_⟩⟩
  · exact List.rdropWhile_append_rtakeWhile.symm
  · exact fun c member => List.mem_rtakeWhile_imp member
  · intro c isLast
    obtain ⟨nonempty, rfl⟩ := List.mem_getLast?_eq_getLast isLast
    simpa using List.rdropWhile_last_not Char.isAlphanum cs nonempty

end TreeScript
