import Mathlib.Data.List.TakeWhile
import TreeScript.Proofs.Keys
import TreeScript.Proofs.Numerals.Nearest
import TreeScript.Store.Comparison

set_option autoImplicit false

/- Numerals at the front of a text. What is read is the longest text of the grammar of numerals, the
number is the one this text denotes, and the decimal text of a word is read as that word. -/
namespace TreeScript

/-! The grammar -/

def Digits (ds : List Char) : Prop := ∀ c ∈ ds, c.isDigit = true

/-- An optional sign, and whether it is a minus. -/
inductive SignText : List Char → Bool → Prop
  | none : SignText [] false
  | plus : SignText ['+'] false
  | minus : SignText ['-'] true

/-- Digits with an optional point, and the number they denote. -/
inductive MantissaText : List Char → ℚ → Prop
  | whole {ds : List Char} (digits : Digits ds) (some : ds ≠ []) :
      MantissaText ds (Nat.ofDigitChars 10 ds 0)
  | pointed {ds fs : List Char} (digits : Digits ds) (some : ds ≠ []) (places : Digits fs) :
      MantissaText (ds ++ '.' :: fs) (Nat.ofDigitChars 10 (ds ++ fs) 0 / 10 ^ fs.length)
  | fraction {fs : List Char} (places : Digits fs) (some : fs ≠ []) :
      MantissaText ('.' :: fs) (Nat.ofDigitChars 10 fs 0 / 10 ^ fs.length)

/-- An optional power of ten. -/
inductive ExponentText : List Char → Int → Prop
  | none : ExponentText [] 0
  | power {mark : Char} {sign ds : List Char} {negative : Bool} (isMark : mark = 'e' ∨ mark = 'E')
      (signed : SignText sign negative) (digits : Digits ds) (some : ds ≠ []) :
      ExponentText (mark :: (sign ++ ds))
        (if negative then -(Nat.ofDigitChars 10 ds 0 : Int) else Nat.ofDigitChars 10 ds 0)

/-- The text of a numeral, whether it is negative, and its size. -/
inductive NumeralText : List Char → Bool → ℚ → Prop
  | mk {sign mantissa power : List Char} {negative : Bool} {x : ℚ} {k : Int}
      (signed : SignText sign negative) (digits : MantissaText mantissa x)
      (scaled : ExponentText power k) :
      NumeralText (sign ++ mantissa ++ power) negative (x * 10 ^ k)

/-- A numeral without point and exponent. -/
def PlainText (literal : List Char) : Prop := '.' ∉ literal ∧ 'e' ∉ literal ∧ 'E' ∉ literal

/-- An optional sign stands in front, then a digit or a point with a digit. -/
def StartsNumeral (cs : List Char) : Prop :=
  ∃ sign negative rest, SignText sign negative ∧ cs = sign ++ rest ∧
    ((∃ d more, rest = d :: more ∧ d.isDigit = true) ∨
      ∃ d more, rest = '.' :: d :: more ∧ d.isDigit = true)

/-- The longest numeral at the front of a text, and what follows it. -/
structure LongestNumeral (cs literal rest : List Char) (negative : Bool) (size : ℚ) : Prop where
  parts : cs = literal ++ rest
  numeral : NumeralText literal negative size
  longest : ∀ other negative size, NumeralText other negative size → other <+: cs →
    other.length ≤ literal.length

/-- A numeral denotes an integer when it is plain and a word holds it, and else the double nearest
to it. -/
structure Number.Denoted (number : Number) (literal : List Char) (negative : Bool) (size : ℚ) :
    Prop where
  integer : ∀ n, number = .integer n ↔
    PlainText literal ∧ (n.toInt : ℚ) = if negative then -size else size
  float : (∀ n, number ≠ .integer n) →
    number = .float (if negative then -Binary64.nearest size else Binary64.nearest size)

/-! Digits -/

variable {cs ds fs rest : List Char}

theorem Digits.not_mem {c : Char} (digits : Digits ds) (other : c.isDigit = false) : c ∉ ds := by
  intro member
  rw [digits c member] at other
  cases other

theorem Digits.plain (digits : Digits ds) : PlainText ds :=
  ⟨digits.not_mem rfl, digits.not_mem rfl, digits.not_mem rfl⟩

theorem digits_takeDigits (cs : List Char) : Digits (Numeral.takeDigits cs).1 :=
  fun _ member => List.mem_takeWhile_imp member

theorem takeDigits_parts (cs : List Char) :
    (Numeral.takeDigits cs).1 ++ (Numeral.takeDigits cs).2 = cs :=
  List.takeWhile_append_dropWhile

theorem takeDigits_append (digits : Digits ds) (cs : List Char) :
    Numeral.takeDigits (ds ++ cs) =
      (ds ++ (Numeral.takeDigits cs).1, (Numeral.takeDigits cs).2) := by
  rw [Numeral.takeDigits, List.takeWhile_append_of_pos digits, List.dropWhile_append_of_pos digits]
  rfl

theorem takeDigits_other {c : Char} (other : c.isDigit = false) (cs : List Char) :
    Numeral.takeDigits (c :: cs) = ([], c :: cs) := by
  simp [Numeral.takeDigits, other]

/-! Signs -/

theorem takeSign_parts (cs : List Char) :
    ∃ sign, SignText sign (Numeral.takeSign cs).1 ∧ cs = sign ++ (Numeral.takeSign cs).2 := by
  unfold Numeral.takeSign
  split
  · exact ⟨['-'], .minus, rfl⟩
  · exact ⟨['+'], .plus, rfl⟩
  · exact ⟨[], .none, rfl⟩

/-- A text that starts with neither a plus nor a minus. -/
def Unsigned (cs : List Char) : Prop := ∀ c ∈ cs.head?, c ≠ '+' ∧ c ≠ '-'

theorem takeSign_unsigned (unsigned : Unsigned cs) : Numeral.takeSign cs = (false, cs) := by
  unfold Numeral.takeSign
  split
  · exact absurd rfl (unsigned '-' rfl).2
  · exact absurd rfl (unsigned '+' rfl).1
  · rfl

theorem takeSign_append {sign : List Char} {negative : Bool} (signed : SignText sign negative)
    (unsigned : Unsigned cs) : Numeral.takeSign (sign ++ cs) = (negative, cs) := by
  cases signed with
  | none => exact takeSign_unsigned unsigned
  | plus => rfl
  | minus => rfl

theorem Digits.unsigned (digits : Digits ds) (some : ds ≠ []) (cs : List Char) :
    Unsigned (ds ++ cs) := by
  cases ds with
  | nil => exact absurd rfl some
  | cons d more =>
      intro c isHead
      cases isHead
      have digit : d.isDigit = true := digits d List.mem_cons_self
      constructor <;> rintro rfl <;> cases digit

theorem MantissaText.unsigned {mantissa : List Char} {x : ℚ} (digits : MantissaText mantissa x)
    (cs : List Char) : Unsigned (mantissa ++ cs) := by
  cases digits with
  | whole digits some => exact digits.unsigned some cs
  | pointed digits some places =>
      rw [List.append_assoc]
      exact digits.unsigned some _
  | fraction places some =>
      intro c isHead
      cases isHead
      decide

/-! What is read is a numeral -/

theorem plainText_append {front back : List Char} :
    PlainText (front ++ back) ↔ PlainText front ∧ PlainText back := by
  simp only [PlainText, List.mem_append, not_or]
  tauto

theorem SignText.plain {sign : List Char} {negative : Bool} (signed : SignText sign negative) :
    PlainText sign := by
  cases signed <;> simp [PlainText]

theorem not_plain_of_point {front back : List Char} : ¬ PlainText (front ++ '.' :: back) :=
  fun plain => plain.1 (by simp)

theorem not_plain_of_mark {mark : Char} (isMark : mark = 'e' ∨ mark = 'E') (back : List Char) :
    ¬ PlainText (mark :: back) := by
  rintro ⟨-, noLower, noUpper⟩
  rcases isMark with rfl | rfl
  · exact noLower List.mem_cons_self
  · exact noUpper List.mem_cons_self

/-- The number that digits and the digits after a point denote. -/
def Numeral.mantissa (whole : List Char) (fraction : Option (List Char)) : ℚ :=
  digitsToNat (whole ++ fraction.getD []) / 10 ^ (fraction.getD []).length

def Numeral.size (t : Numeral) : ℚ :=
  mantissa t.whole t.fraction * 10 ^ exponentValue t.exponent

theorem takeFraction_point (whole more : List Char) :
    Numeral.takeFraction whole ('.' :: more) =
      if whole = [] ∧ (Numeral.takeDigits more).1 = [] then (none, '.' :: more)
      else (some (Numeral.takeDigits more).1, (Numeral.takeDigits more).2) := by
  simp [Numeral.takeFraction]

theorem takeFraction_other (whole : List Char) (other : '.' ∉ cs.head?) :
    Numeral.takeFraction whole cs = (none, cs) := by
  unfold Numeral.takeFraction
  split
  · exact absurd rfl other
  · rfl

theorem takeExponent_mark {mark : Char} (isMark : mark = 'e' ∨ mark = 'E') (more : List Char) :
    Numeral.takeExponent (mark :: more) =
      if (Numeral.takeDigits (Numeral.takeSign more).2).1 = [] then (none, mark :: more)
      else (some ((Numeral.takeSign more).1, (Numeral.takeDigits (Numeral.takeSign more).2).1),
        (Numeral.takeDigits (Numeral.takeSign more).2).2) := by
  unfold Numeral.takeExponent
  dsimp only
  rw [if_pos isMark]
  split
  · next taken => rw [taken, if_pos rfl]
  · next ds left some taken =>
      rw [taken, if_neg some]

theorem takeExponent_other (other : ∀ c ∈ cs.head?, ¬ (c = 'e' ∨ c = 'E')) :
    Numeral.takeExponent cs = (none, cs) := by
  unfold Numeral.takeExponent
  split
  · exact if_neg (other _ rfl)
  · rfl

/-- A numeral is read part by part. -/
theorem read_eq_some_iff {t : Numeral} :
    Numeral.read cs = some (t, rest) ↔
      ∃ front left back, Numeral.takeSign cs = (t.negative, front) ∧
        Numeral.takeDigits front = (t.whole, left) ∧
        Numeral.takeFraction t.whole left = (t.fraction, back) ∧
        ¬ (t.whole = [] ∧ t.fraction = none) ∧
        Numeral.takeExponent back = (t.exponent, rest) := by
  simp only [Numeral.read]
  constructor
  · intro read
    split at read
    · cases read
    · next some =>
        cases read
        exact ⟨_, _, _, rfl, rfl, rfl, by simpa using some, rfl⟩
  · rintro ⟨front, left, back, atSign, atDigits, atFraction, some, atExponent⟩
    rw [atSign]
    dsimp only
    rw [atDigits]
    dsimp only
    rw [atFraction]
    dsimp only
    rw [atExponent, if_neg (by simpa using some)]

theorem mantissa_parts {whole left : List Char} {fraction : Option (List Char)}
    (front : Numeral.takeDigits cs = (whole, left))
    (back : Numeral.takeFraction whole left = (fraction, rest))
    (some : ¬ (whole = [] ∧ fraction = none)) :
    ∃ mantissa, cs = mantissa ++ rest ∧
      MantissaText mantissa (Numeral.mantissa whole fraction) ∧
      (PlainText mantissa ↔ fraction = none) := by
  have parts : whole ++ left = cs := by simpa only [front] using takeDigits_parts cs
  have digits : Digits whole := by simpa only [front] using digits_takeDigits cs
  have plain (none : fraction = none) (same : left = rest) :
      ∃ mantissa, cs = mantissa ++ rest ∧
        MantissaText mantissa (Numeral.mantissa whole fraction) ∧
        (PlainText mantissa ↔ fraction = Option.none) := by
    have number : Numeral.mantissa whole fraction = Nat.ofDigitChars 10 whole 0 := by
      simp [none, Numeral.mantissa, digitsToNat_eq]
    rw [number, ← same]
    exact ⟨whole, parts.symm, .whole digits fun empty => some ⟨empty, none⟩,
      iff_of_true digits.plain none⟩
  by_cases point : '.' ∈ left.head?
  · obtain ⟨more, rfl⟩ : ∃ more, left = '.' :: more := List.head?_eq_some_iff.mp point
    rw [takeFraction_point] at back
    split at back
    · cases back
      exact plain rfl rfl
    · next any =>
        have moreParts : (Numeral.takeDigits more).1 ++ (Numeral.takeDigits more).2 = more :=
          takeDigits_parts more
        have places : Digits (Numeral.takeDigits more).1 := digits_takeDigits more
        cases back
        rw [Numeral.mantissa, digitsToNat_eq]
        by_cases none : whole = []
        · subst none
          have notPlain : ¬ PlainText ([] ++ '.' :: (Numeral.takeDigits more).1) :=
            not_plain_of_point
          refine ⟨'.' :: (Numeral.takeDigits more).1, ?_, .fraction places (by simpa using any),
            iff_of_false notPlain (by simp)⟩
          rw [← parts, List.cons_append, moreParts]
          rfl
        · refine ⟨whole ++ '.' :: (Numeral.takeDigits more).1, ?_, .pointed digits none places,
            iff_of_false not_plain_of_point (by simp)⟩
          rw [← parts, List.append_assoc, List.cons_append, moreParts]
  · rw [takeFraction_other whole point] at back
    cases back
    exact plain rfl rfl

theorem exponent_parts {exponent : Option (Bool × List Char)}
    (back : Numeral.takeExponent cs = (exponent, rest)) :
    ∃ power, cs = power ++ rest ∧ ExponentText power (Numeral.exponentValue exponent) ∧
      (PlainText power ↔ exponent = none) := by
  have plain (none : exponent = none) (same : cs = rest) :
      ∃ power, cs = power ++ rest ∧ ExponentText power (Numeral.exponentValue exponent) ∧
        (PlainText power ↔ exponent = Option.none) := by
    rw [none, same]
    exact ⟨[], rfl, .none, iff_of_true (by simp [PlainText]) rfl⟩
  by_cases mark : ∃ c ∈ cs.head?, c = 'e' ∨ c = 'E'
  · obtain ⟨c, isHead, isMark⟩ := mark
    obtain ⟨more, rfl⟩ : ∃ more, cs = c :: more := List.head?_eq_some_iff.mp isHead
    rw [takeExponent_mark isMark] at back
    split at back
    · cases back
      exact plain rfl rfl
    · next some =>
        obtain ⟨sign, signed, signParts⟩ := takeSign_parts more
        have parts := takeDigits_parts (Numeral.takeSign more).2
        have digits := digits_takeDigits (Numeral.takeSign more).2
        cases back
        refine ⟨c :: (sign ++ (Numeral.takeDigits (Numeral.takeSign more).2).1), ?_, ?_,
          iff_of_false (not_plain_of_mark isMark _) (by simp)⟩
        · rw [List.cons_append, List.append_assoc, parts, ← signParts]
        · rw [Numeral.exponentValue, digitsToNat_eq]
          exact .power isMark signed digits some
  · rw [takeExponent_other fun c isHead isMark => mark ⟨c, isHead, isMark⟩] at back
    cases back
    exact plain rfl rfl

/-- What is read is a numeral at the front of the text. -/
theorem read_parts {t : Numeral} (read : Numeral.read cs = some (t, rest)) :
    ∃ literal, cs = literal ++ rest ∧ NumeralText literal t.negative t.size ∧
      (PlainText literal ↔ t.fraction = none ∧ t.exponent = none) := by
  obtain ⟨front, left, back, atSign, atDigits, atFraction, some, atExponent⟩ :=
    read_eq_some_iff.mp read
  obtain ⟨sign, signed, signParts⟩ := takeSign_parts cs
  rw [atSign] at signed signParts
  obtain ⟨mantissa, mantissaParts, digits, plainMantissa⟩ :=
    mantissa_parts atDigits atFraction some
  obtain ⟨power, powerParts, scaled, plainPower⟩ := exponent_parts atExponent
  refine ⟨sign ++ mantissa ++ power, ?_, .mk signed digits scaled, ?_⟩
  · simp [signParts, mantissaParts, powerParts]
  · rw [plainText_append, plainText_append, plainMantissa, plainPower]
    have unmarked : PlainText sign := signed.plain
    tauto

/-! What is read is the longest numeral -/

theorem length_takeDigits_le (cs : List Char) : (Numeral.takeDigits cs).2.length ≤ cs.length := by
  conv_rhs => rw [← takeDigits_parts cs, List.length_append]
  exact Nat.le_add_left _ _

theorem length_takeFraction_le (whole cs : List Char) :
    (Numeral.takeFraction whole cs).2.length ≤ cs.length := by
  by_cases point : '.' ∈ cs.head?
  · obtain ⟨more, rfl⟩ : ∃ more, cs = '.' :: more := List.head?_eq_some_iff.mp point
    rw [takeFraction_point]
    split
    · exact Nat.le_refl _
    · exact Nat.le_succ_of_le (length_takeDigits_le more)
  · rw [takeFraction_other whole point]

theorem length_takeExponent_le (cs : List Char) :
    (Numeral.takeExponent cs).2.length ≤ cs.length := by
  obtain ⟨power, parts, -⟩ := exponent_parts (Eq.refl (Numeral.takeExponent cs))
  conv_rhs => rw [parts, List.length_append]
  exact Nat.le_add_left _ _

theorem takeFraction_append {whole : List Char} (places : Digits fs)
    (some : ¬ (whole = [] ∧ fs = [])) (tail : List Char) :
    Numeral.takeFraction whole ('.' :: (fs ++ tail)) =
      (Option.some (fs ++ (Numeral.takeDigits tail).1), (Numeral.takeDigits tail).2) := by
  rw [takeFraction_point, takeDigits_append places, if_neg]
  rintro ⟨noWhole, noPlaces⟩
  exact some ⟨noWhole, (List.append_eq_nil_iff.mp noPlaces).1⟩

/-- Reading goes beyond the digits of a numeral only where more of them follow. -/
theorem mantissa_covers {mantissa : List Char} {x : ℚ} (digits : MantissaText mantissa x)
    (tail : List Char) :
    ∃ whole left fraction back, Numeral.takeDigits (mantissa ++ tail) = (whole, left) ∧
      Numeral.takeFraction whole left = (fraction, back) ∧
      ¬ (whole = [] ∧ fraction = none) ∧ back.length ≤ tail.length ∧
      ((∀ c ∈ tail.head?, c = 'e' ∨ c = 'E') → back = tail) := by
  have shorter : (Numeral.takeDigits tail).2.length ≤ tail.length := length_takeDigits_le tail
  have stays (marked : ∀ c ∈ tail.head?, c = 'e' ∨ c = 'E') :
      (Numeral.takeDigits tail).2 = tail := by
    cases tail with
    | nil => rfl
    | cons c more =>
        rcases marked c rfl with rfl | rfl
        · rw [takeDigits_other rfl]
        · rw [takeDigits_other rfl]
  cases digits with
  | whole digits some =>
      refine ⟨_, _, (Numeral.takeFraction _ _).1, (Numeral.takeFraction _ _).2,
        takeDigits_append digits tail, rfl, by simp [some], ?_, ?_⟩
      · exact Nat.le_trans (length_takeFraction_le _ _) shorter
      · intro marked
        have noPoint : '.' ∉ tail.head? := by
          intro point
          rcases marked '.' point with same | same <;> cases same
        rw [stays marked, takeFraction_other _ noPoint]
  | @pointed ds fs digits some places =>
      have taken : Numeral.takeDigits (ds ++ '.' :: fs ++ tail) = (ds, '.' :: (fs ++ tail)) := by
        rw [List.append_assoc, takeDigits_append digits, List.cons_append, takeDigits_other rfl,
          List.append_nil]
      exact ⟨_, _, _, _, taken, takeFraction_append places (by simp [some]) tail, by simp,
        shorter, stays⟩
  | @fraction fs places some =>
      exact ⟨_, _, _, _, takeDigits_other rfl (fs ++ tail),
        takeFraction_append places (by simp [some]) tail, by simp, shorter, stays⟩

theorem exponent_covers {power : List Char} {k : Int} (scaled : ExponentText power k)
    (rest : List Char) : (Numeral.takeExponent (power ++ rest)).2.length ≤ rest.length := by
  cases scaled with
  | none => exact length_takeExponent_le rest
  | @power mark sign ds negative isMark signed digits some =>
      have atSign : Numeral.takeSign (sign ++ ds ++ rest) = (negative, ds ++ rest) := by
        rw [List.append_assoc]
        exact takeSign_append signed (digits.unsigned some rest)
      rw [List.cons_append, takeExponent_mark isMark, atSign, takeDigits_append digits,
        if_neg (by simp [some])]
      exact length_takeDigits_le rest

/-- No numeral at the front of a text is longer than what is read. -/
theorem read_covers {literal : List Char} {negative : Bool} {size : ℚ}
    (numeral : NumeralText literal negative size) (rest : List Char) :
    ∃ t left, Numeral.read (literal ++ rest) = some (t, left) ∧ left.length ≤ rest.length := by
  cases numeral with
  | @mk sign mantissa power negative x k signed digits scaled =>
      obtain ⟨whole, left, fraction, back, atDigits, atFraction, some, shorter, stays⟩ :=
        mantissa_covers digits (power ++ rest)
      have atSign : Numeral.takeSign (sign ++ mantissa ++ power ++ rest) =
          (negative, mantissa ++ (power ++ rest)) := by
        rw [List.append_assoc, List.append_assoc]
        exact takeSign_append signed (digits.unsigned _)
      have atMost : (Numeral.takeExponent back).2.length ≤ rest.length := by
        cases scaled with
        | none => exact Nat.le_trans (length_takeExponent_le back) shorter
        | power isMark signed digits any =>
            have same := stays fun c isHead => by
              cases isHead
              exact isMark
            rw [same]
            exact exponent_covers (.power isMark signed digits any) rest
      exact ⟨⟨negative, whole, fraction, (Numeral.takeExponent back).1⟩, _,
        read_eq_some_iff.mpr ⟨_, left, back, atSign, atDigits, atFraction, some, rfl⟩, atMost⟩

theorem startsNumeral_iff : StartsNumeral cs ↔ (Numeral.read cs).isSome = true := by
  constructor
  · rintro ⟨sign, negative, rest, signed, rfl, ⟨d, more, rfl, digit⟩ | ⟨d, more, rfl, digit⟩⟩
    · have numeral : NumeralText (sign ++ [d] ++ []) negative _ :=
        .mk signed (.whole (by simpa [Digits] using digit) (by simp)) .none
      obtain ⟨t, left, read, -⟩ := read_covers numeral more
      simp only [List.append_nil, List.append_assoc, List.singleton_append] at read
      rw [read]
      rfl
    · have numeral : NumeralText (sign ++ ['.', d] ++ []) negative _ :=
        .mk signed (.fraction (by simpa [Digits] using digit) (by simp)) .none
      obtain ⟨t, left, read, -⟩ := read_covers numeral more
      simp only [List.append_nil, List.append_assoc, List.cons_append, List.nil_append] at read
      rw [read]
      rfl
  · intro some
    obtain ⟨⟨t, rest⟩, read⟩ := Option.isSome_iff_exists.mp some
    obtain ⟨literal, parts, numeral, -⟩ := read_parts read
    generalize t.size = size at numeral
    cases numeral with
    | @mk sign mantissa power negative x k signed digits scaled =>
        refine ⟨sign, _, mantissa ++ (power ++ rest), signed, by simp [parts], ?_⟩
        cases digits with
        | whole digits any | pointed digits any places =>
            obtain ⟨d, ds, rfl⟩ := List.exists_cons_of_ne_nil any
            exact .inl ⟨d, _, rfl, digits d List.mem_cons_self⟩
        | fraction places any =>
            obtain ⟨d, ds, rfl⟩ := List.exists_cons_of_ne_nil any
            exact .inr ⟨d, _, rfl, places d List.mem_cons_self⟩

theorem longest_of_read {t : Numeral} (read : Numeral.read cs = some (t, rest)) :
    ∃ literal, LongestNumeral cs literal rest t.negative t.size ∧
      (PlainText literal ↔ t.fraction = none ∧ t.exponent = none) := by
  obtain ⟨literal, parts, numeral, plain⟩ := read_parts read
  refine ⟨literal, ⟨parts, numeral, ?_⟩, plain⟩
  rintro other negative size isNumeral ⟨tail, isFront⟩
  obtain ⟨t', left, readOther, shorter⟩ := read_covers isNumeral tail
  rw [isFront, read] at readOther
  cases readOther
  have lengths : literal.length + rest.length = other.length + tail.length := by
    rw [← List.length_append, ← parts, ← isFront, List.length_append]
  omega

/-! The number of a numeral -/

theorem toFloat_numeral (t : Numeral) :
    t.toFloat = if t.negative then -Binary64.nearest t.size else Binary64.nearest t.size := by
  have size : Decimal.toRat ⟨digitsToNat (t.whole ++ t.fraction.getD []),
      Numeral.exponentValue t.exponent - (t.fraction.getD []).length⟩ = t.size := by
    rw [Decimal.toRat, Numeral.size, Numeral.mantissa, zpow_sub₀ (by norm_num), zpow_natCast]
    ring
  simp only [Numeral.toFloat, Decimal.toFloat_eq, size]

theorem denoted_toNumber {t : Numeral} {literal : List Char}
    (plain : PlainText literal ↔ t.fraction = none ∧ t.exponent = none) :
    t.toNumber.Denoted literal t.negative t.size := by
  have float (number : t.toNumber = .float t.toFloat)
      (none : ∀ n : Int64, ¬ (PlainText literal ∧
        (n.toInt : ℚ) = if t.negative then -t.size else t.size)) :
      t.toNumber.Denoted literal t.negative t.size := by
    rw [number, toFloat_numeral]
    exact ⟨fun n => iff_of_false (by simp) (none n), fun _ => rfl⟩
  by_cases whole : t.fraction = none ∧ t.exponent = none
  · have number : t.toNumber =
        (fitWord (if t.negative then -(digitsToNat t.whole : Int) else digitsToNat t.whole)).elim
          (.float t.toFloat) .integer := by
      simp only [Numeral.toNumber, whole.1, whole.2]
      cases fitWord (if t.negative then -(digitsToNat t.whole : Int) else digitsToNat t.whole) with
      | some n => rfl
      | none => rfl
    have signed : (if t.negative then -t.size else t.size) =
        ((if t.negative then -(digitsToNat t.whole : Int) else digitsToNat t.whole : Int) : ℚ) := by
      have size : t.size = digitsToNat t.whole := by
        simp [Numeral.size, Numeral.mantissa, Numeral.exponentValue, whole.1, whole.2]
      rw [size]
      split <;> simp
    cases fits : fitWord
        (if t.negative then -(digitsToNat t.whole : Int) else digitsToNat t.whole) with
    | some k =>
        rw [fits, Option.elim_some] at number
        have same := fitWord_eq_some_iff.mp fits
        rw [number]
        refine ⟨fun n => ?_, fun none => absurd rfl (none k)⟩
        rw [signed, ← same, Int.cast_inj, Int64.toInt_inj, and_iff_right (plain.mpr whole), eq_comm]
        simp
    | none =>
        rw [fits, Option.elim_none] at number
        refine float number fun n ⟨_, same⟩ => ?_
        rw [signed, Int.cast_inj] at same
        rw [fitWord_eq_some_iff.mpr same] at fits
        cases fits
  · refine float ?_ fun n ⟨isPlain, _⟩ => whole (plain.mp isPlain)
    unfold Numeral.toNumber
    split
    · next noFraction noExponent => exact absurd ⟨noFraction, noExponent⟩ whole
    · rfl

/-! The decimal text of a word -/

theorem isBlank_digit {c : Char} (digit : c.isDigit = true) : Text.isBlank c = false := by
  obtain ⟨low, high⟩ := Char.isDigit_iff_toNat.mp digit
  simp [Text.isBlank, Text.blankRanges, Text.inRanges] at low high ⊢
  omega

/-- Blanks after a numeral do not go on it. -/
theorem blank_stops (blank : ∀ c ∈ rest, Text.isBlank c = true) :
    Numeral.takeDigits rest = ([], rest) ∧ '.' ∉ rest.head? ∧
      ∀ c ∈ rest.head?, ¬ (c = 'e' ∨ c = 'E') := by
  cases rest with
  | nil => exact ⟨rfl, by simp, by simp⟩
  | cons c more =>
      have isBlank : Text.isBlank c = true := blank c List.mem_cons_self
      have point : Text.isBlank '.' = false := by cbv
      have lower : Text.isBlank 'e' = false := by cbv
      have upper : Text.isBlank 'E' = false := by cbv
      have noDigit : c.isDigit = false := by
        by_contra digit
        rw [isBlank_digit (by simpa using digit)] at isBlank
        cases isBlank
      refine ⟨takeDigits_other noDigit more, ?_, ?_⟩
      · rintro ⟨⟩
        rw [point] at isBlank
        cases isBlank
      · rintro _ ⟨⟩ (rfl | rfl)
        · rw [lower] at isBlank
          cases isBlank
        · rw [upper] at isBlank
          cases isBlank

theorem digits_decimal (size : Nat) : Digits (Nat.toDigits 10 size) :=
  fun _ member => Nat.isDigit_of_mem_toDigits (by omega) (by omega) member

theorem read_decimal {sign : List Char} {negative : Bool} (signed : SignText sign negative)
    (size : Nat) (blank : ∀ c ∈ rest, Text.isBlank c = true) :
    Numeral.read (sign ++ Nat.toDigits 10 size ++ rest) =
      some (⟨negative, Nat.toDigits 10 size, none, none⟩, rest) := by
  obtain ⟨noDigits, noPoint, noMark⟩ := blank_stops blank
  have digits : Digits (Nat.toDigits 10 size) := digits_decimal size
  have some : Nat.toDigits 10 size ≠ [] := Nat.toDigits_ne_nil
  rw [read_eq_some_iff, List.append_assoc]
  refine ⟨_, rest, rest, takeSign_append signed (digits.unsigned some rest), ?_,
    takeFraction_other _ noPoint, by simp, takeExponent_other noMark⟩
  rw [takeDigits_append digits, noDigits, List.append_nil]

theorem decimal_parts (n : Int) :
    ∃ sign negative size, SignText sign negative ∧
      (toString n).toList = sign ++ Nat.toDigits 10 size ∧
      n = if negative then -(size : Int) else size := by
  cases n with
  | ofNat size => exact ⟨[], false, size, .none, toList_toString_natural size, rfl⟩
  | negSucc size => exact ⟨['-'], true, size + 1, .minus, toList_toString_negative size, rfl⟩

theorem dropWhile_decimal {sign : List Char} {negative : Bool} (signed : SignText sign negative)
    (size : Nat) (rest : List Char) :
    (sign ++ Nat.toDigits 10 size ++ rest).dropWhile Text.isBlank =
      sign ++ Nat.toDigits 10 size ++ rest := by
  cases signed with
  | none =>
      have digits : Digits (Nat.toDigits 10 size) := digits_decimal size
      have some : Nat.toDigits 10 size ≠ [] := Nat.toDigits_ne_nil
      obtain ⟨d, ds, isCons⟩ := List.exists_cons_of_ne_nil some
      rw [isCons] at digits ⊢
      have visible : Text.isBlank d = false := isBlank_digit (digits d List.mem_cons_self)
      exact List.dropWhile_cons_of_neg (by simp [visible])
  | plus =>
      have visible : Text.isBlank '+' = false := by cbv
      exact List.dropWhile_cons_of_neg (by simp [visible])
  | minus =>
      have visible : Text.isBlank '-' = false := by cbv
      exact List.dropWhile_cons_of_neg (by simp [visible])

/-- The decimal text of a word among blanks is read as that word. -/
theorem leadingNumber_decimal (n : Int64) {before after : String}
    (blankBefore : ∀ c ∈ before.toList, Text.isBlank c = true)
    (blankAfter : ∀ c ∈ after.toList, Text.isBlank c = true) :
    leadingNumber (before ++ toString n.toInt ++ after) = some (.integer n, true) := by
  obtain ⟨sign, negative, size, signed, text, isSize⟩ := decimal_parts n.toInt
  have unblanked : ((before ++ toString n.toInt ++ after).toList.dropWhile Text.isBlank) =
      sign ++ Nat.toDigits 10 size ++ after.toList := by
    rw [String.toList_append, String.toList_append, List.append_assoc,
      List.dropWhile_append_of_pos blankBefore, text, dropWhile_decimal signed]
  have number : (⟨negative, Nat.toDigits 10 size, none, none⟩ : Numeral).toNumber = .integer n := by
    simp only [Numeral.toNumber, digitsToNat_toDigits, ← isSize, fitWord_toInt]
  rw [leadingNumber, unblanked, read_decimal signed size blankAfter]
  simp only [number, List.all_eq_true.mpr blankAfter]

/-! The number at the front of a text -/

/-- A number is read exactly where a numeral starts. It is denoted by the longest numeral there, and
reported as the whole text exactly when blanks follow. The decimal text of a word is numeric, among
blanks too: it is loosely equal to the word and converted to it. -/
theorem leadingNumber_longest (text : String) (n : Int64) {before after : String}
    (blankBefore : ∀ c ∈ before.toList, Text.isBlank c = true)
    (blankAfter : ∀ c ∈ after.toList, Text.isBlank c = true) :
    ((leadingNumber text).isSome = true ↔
        StartsNumeral (text.toList.dropWhile Text.isBlank)) ∧
      (∀ number complete, leadingNumber text = some (number, complete) →
        ∃ literal rest negative size,
          LongestNumeral (text.toList.dropWhile Text.isBlank) literal rest negative size ∧
          number.Denoted literal negative size ∧
          (complete = true ↔ ∀ c ∈ rest, Text.isBlank c = true)) ∧
      numericText (before ++ toString n.toInt ++ after) = some (.integer n) ∧
      ∀ st : Store,
        st.looselyEqual (.string (before ++ toString n.toInt ++ after)) (.integer n) = some true ∧
        st.looselyEqual (.integer n) (.string (before ++ toString n.toInt ++ after)) = some true ∧
        st.toInteger (.string (before ++ toString n.toInt ++ after)) = n := by
  have decimal := leadingNumber_decimal n blankBefore blankAfter
  generalize before ++ toString n.toInt ++ after = shown at decimal ⊢
  have numeric : numericText shown = some (.integer n) := by rw [numericText, decimal]
  have equal : Number.compare (.integer n) (.integer n) = some .eq :=
    congrArg some Std.ReflCmp.compare_self
  refine ⟨?_, ?_, numeric, fun st => ⟨?_, ?_, ?_⟩⟩
  · rw [startsNumeral_iff, leadingNumber]
    split
    · next t rest read =>
        rw [read]
        exact iff_of_true rfl rfl
    · next read =>
        rw [read]
        exact Iff.rfl
  · intro number complete leading
    rw [leadingNumber] at leading
    split at leading
    · next t rest read =>
        cases leading
        obtain ⟨literal, longest, plain⟩ := longest_of_read read
        exact ⟨literal, rest, t.negative, t.size, longest, denoted_toNumber plain,
          List.all_eq_true⟩
    · cases leading
  · show some (compareTextNumber shown (.integer n) (toString n.toInt) == some .eq) = some true
    rw [compareTextNumber, numeric]
    simp only [equal]
    rfl
  · show some (compareNumberText (.integer n) (toString n.toInt) shown == some .eq) = some true
    rw [compareNumberText, numeric]
    simp only [equal]
    rfl
  · rw [Store.toInteger, decimal]

example : leadingNumber " 12abc" = some (.integer 12, false) := by cbv

theorem leadingNumber_longest_least :
    numericText " -9223372036854775808\n" = some (.integer Int64.minValue) ∧
      ∀ st : Store, st.toInteger (.string " -9223372036854775808\n") = Int64.minValue := by
  have blankBefore : ∀ c ∈ " ".toList, Text.isBlank c = true := by
    simp [Text.isBlank, Text.inRanges, Text.blankRanges]
  have blankAfter : ∀ c ∈ "\n".toList, Text.isBlank c = true := by
    simp [Text.isBlank, Text.inRanges, Text.blankRanges]
  obtain ⟨-, -, numeric, converted⟩ :=
    leadingNumber_longest "1e5" Int64.minValue blankBefore blankAfter
  exact ⟨numeric, fun st => (converted st).2.2⟩

end TreeScript
